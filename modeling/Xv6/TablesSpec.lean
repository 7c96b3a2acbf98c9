import Xv6.Tables

/-!
# All indices are in range

`Tab.rule` says what each operation needs and gives: the index of `use` is in range, and so is what `conscur` is set to, hence what
is read from it.  Every system call and the interrupt handler of the console meet it (`Tab.meets_code`, `Tab.meets_consoleintr`),
for `sproc` and `consw` if their argument does.
-/

namespace Xv6

open Function (update)

namespace Tab

variable {α β : Type}

/-- What an operation needs and what it gives. -/
def rule : Code.Rule TabOp.Ans Unit := fun o Q g =>
  match o with
  | .use t i => (0 ≤ i ∧ i < t.size) ∧ Q () g
  | .getConscur => ∀ n : Int, 0 ≤ n ∧ n < NCONS → Q n g
  | .setConscur n => (0 ≤ n ∧ n < NCONS) ∧ Q () g
  | .enter cnum => 0 ≤ cnum ∧ cnum < NCONS → Q () g
  | .getOfile p fd => ∀ x : (TabOp.getOfile p fd).Ans, Q x g
  | .setOfile p fd f => ∀ x : (TabOp.setOfile p fd f).Ans, Q x g
  | .getFile f => ∀ x : (TabOp.getFile f).Ans, Q x g
  | .setFile f y => ∀ x : (TabOp.setFile f y).Ans, Q x g
  | .getNode i => ∀ x : (TabOp.getNode i).Ans, Q x g
  | .setNode i y => ∀ x : (TabOp.setNode i y).Ans, Q x g
  | .any => ∀ x : TabOp.any.Ans, Q x g

theorem rule_mono : Code.Rule.Mono rule := by
  intro o Q Q' g h hR
  cases o with
  | use t i => exact ⟨hR.1, h _ _ hR.2⟩
  | getConscur => exact fun n hn => h _ _ (hR n hn)
  | setConscur n => exact ⟨hR.1, h _ _ hR.2⟩
  | enter cnum => exact fun hc => h _ _ (hR hc)
  | _ => exact fun x => h _ _ (hR x)

/-- The code meets the rule, and what it returns satisfies `Q`. -/
def Meets (c : Tab α) (Q : α → Prop) : Prop := c.wp rule (fun _ => True) (fun a _ => Q a) ()

/-- The code meets the rule. -/
abbrev Safe (c : Tab α) : Prop := Meets c fun _ => True

theorem meets_pure {a : α} {Q : α → Prop} (h : Q a) : Meets (pure a) Q := h

theorem meets_bind {c : Tab α} {f : α → Tab β} {P : α → Prop} {Q : β → Prop} (hc : Meets c P) (hf : ∀ a, P a → Meets (f a) Q) :
    Meets (c >>= f) Q := by
  unfold Meets
  rw [Code.wp_bind]
  exact Code.wp_mono rule_mono hc fun a _ ha => hf a ha

/-- The same where nothing has to be known about what comes first. -/
theorem safe_bind {c : Tab α} {f : α → Tab β} {Q : β → Prop} (hc : Safe c) (hf : ∀ a, Meets (f a) Q) : Meets (c >>= f) Q :=
  meets_bind hc fun a _ => hf a

theorem safe_use {t : KArray} {i : Int} (h0 : 0 ≤ i) (h1 : i < t.size) : Safe (use t i) := ⟨⟨h0, h1⟩, trivial⟩

theorem meets_getConscur : Meets getConscur fun n => 0 ≤ n ∧ n < NCONS := fun _ h => h

theorem safe_setConscur {n : Int} (h : 0 ≤ n ∧ n < NCONS) : Safe (setConscur n) := ⟨h, trivial⟩

theorem safe_getOfile (p : Slot) (fd : Nat) : Safe (getOfile p fd) := fun _ => trivial

theorem safe_setOfile (p : Slot) (fd : Nat) (f : Option Nat) : Safe (setOfile p fd f) := fun _ => trivial

theorem safe_getFile (f : Nat) : Safe (getFile f) := fun _ => trivial

theorem safe_setFile (f : Nat) (x : TabFile) : Safe (setFile f x) := fun _ => trivial

theorem safe_getNode (i : Inum) : Safe (getNode i) := fun _ => trivial

theorem safe_setNode (i : Inum) (x : Option (Int × Int)) : Safe (setNode i x) := fun _ => trivial

theorem safe_any : Safe any := fun _ => trivial

theorem safe_rounds {body : Tab Unit} (h : Safe body) (n : Nat) : Safe (rounds body n) := by
  induction n with
  | zero => exact meets_pure trivial
  | succ n ih => exact safe_bind h fun _ => ih

theorem safe_eachFrom {body : Nat → Tab Unit} {k i n : Nat} (h : ∀ i < n, Safe (body i)) (hk : i + k ≤ n) : Safe (eachFrom body k i) := by
  induction k generalizing i with
  | zero => exact meets_pure trivial
  | succ k ih => exact safe_bind (h i (by omega)) fun _ => ih (by omega)

theorem safe_procLoop : Safe procLoop :=
  safe_eachFrom (n := NPROC) (fun i hi => safe_use (by omega) (by simpa [KArray.size] using hi)) (by omega)

/-! ### The console -/

theorem safe_current : Safe current := meets_bind meets_getConscur fun _ h => safe_use h.1 h.2

theorem safe_consolewrite (cnum n : Int) : Safe (consolewrite cnum n) := by
  unfold consolewrite
  induction n.toNat with
  | zero => exact meets_pure trivial
  | succ n ih =>
    refine safe_bind safe_any fun x => ?_
    split
    · exact meets_pure trivial
    · exact meets_bind meets_getConscur fun _ _ => ih

section read

variable {cnum : Int} (h0 : 0 ≤ cnum) (h1 : cnum < NCONS)

include h0 h1

theorem safe_cons : Safe (use .cons cnum) := safe_use h0 h1

theorem safe_consolereadLoop (n : Nat) : Safe (consolereadLoop cnum n) := by
  have hu := safe_cons h0 h1
  induction n with
  | zero => exact meets_pure trivial
  | succ n ih =>
    refine safe_bind safe_any fun x => safe_bind (safe_rounds ?_ _) fun _ => safe_bind hu fun _ => safe_bind hu fun _ =>
      safe_bind safe_any fun y => ?_
    · exact safe_bind hu fun _ => safe_bind hu fun _ => safe_bind hu fun _ => hu
    split
    · exact meets_pure trivial
    · refine safe_bind hu fun _ => safe_bind hu fun _ => safe_bind safe_any fun z => ?_
      split
      · exact hu
      · exact ih

end read

theorem meets_enter (cnum : Int) : Meets (Code.op (TabOp.enter cnum)) fun _ => 0 ≤ cnum ∧ cnum < NCONS := fun h => h

theorem safe_consoleread (cnum n : Int) : Safe (consoleread cnum n) := by
  refine meets_bind (meets_enter cnum) fun _ h => ?_
  exact safe_bind (safe_cons h.1 h.2) fun _ => safe_bind (safe_consolereadLoop h.1 h.2 _) fun _ => safe_cons h.1 h.2

theorem safe_consolesw {n : Int} (h : 0 ≤ n ∧ n < NCONS) : Safe (consolesw n) :=
  safe_bind (safe_setConscur h) fun _ => meets_bind meets_getConscur fun _ _ => meets_pure trivial

theorem safe_consolenext : Safe consolenext := by
  refine meets_bind meets_getConscur fun n h => safe_bind (safe_setConscur ?_) fun _ => meets_bind meets_getConscur fun _ => safe_consolesw
  rw [Int.tmod_eq_emod_of_nonneg (by omega)]
  exact ⟨Int.emod_nonneg _ (by decide), Int.emod_lt_of_pos _ (by decide)⟩

theorem safe_consolekill : Safe consolekill := by
  have hc := safe_current
  exact safe_bind hc fun _ => safe_bind hc fun _ => safe_bind hc fun _ => safe_bind hc fun _ => hc

theorem safe_consolestop : Safe consoleswitch.consolestop := by
  have hc := safe_current
  refine safe_bind hc fun _ => safe_bind hc fun _ => safe_bind safe_any fun x => ?_
  split
  · exact meets_pure trivial
  · exact safe_bind hc fun _ => hc

theorem safe_consoleerase : Safe consoleerase := by
  have hc := safe_current
  refine safe_bind hc fun _ => safe_bind hc fun _ => safe_bind safe_any fun x => ?_
  split
  · exact meets_pure trivial
  · exact hc

theorem safe_consolefull (c : Int) : Safe (consolestore.consolefull c) := by
  have hc := safe_current
  unfold consolestore.consolefull
  split
  · exact meets_pure trivial
  · exact safe_bind hc fun _ => safe_bind hc fun _ => safe_any

theorem safe_consolestore (c : Int) : Safe (consolestore c) := by
  have hc := safe_current
  refine safe_bind hc fun _ => safe_bind hc fun _ => safe_bind safe_any fun x => ?_
  split
  · exact meets_pure trivial
  refine safe_bind hc fun _ => safe_bind hc fun _ => safe_bind (safe_consolefull _) fun full => ?_
  split
  · exact meets_pure trivial
  · exact safe_bind hc fun _ => safe_bind hc fun _ => safe_bind hc fun _ => safe_procLoop

theorem safe_consoleswitch (c : Int) : Safe (consoleswitch c) := by
  have hc := safe_current
  unfold consoleswitch
  split
  · exact safe_bind hc fun _ => safe_bind safe_consolenext fun _ => hc
  split
  · exact safe_procLoop
  split
  · exact meets_pure trivial
  split
  · exact safe_bind safe_any fun n => safe_bind (safe_rounds safe_consolekill _) fun _ => safe_consolestop
  split
  · exact safe_consoleerase
  split
  · exact meets_pure trivial
  · exact safe_consolestore c

theorem safe_consoleintr (c : Int) : Safe (consoleintr c) :=
  safe_bind safe_current fun _ => safe_bind (safe_consoleswitch c) fun _ => safe_current

/-! ### Files -/

theorem safe_ofile {fd : Nat} (h : fd < NOFILE) : Safe (use .ofile fd) := safe_use (by omega) (by simpa [KArray.size] using h)

theorem meets_argfd (p : Slot) (fd : Int) : Meets (argfd p fd) fun x => ∀ y, x = some y → y.1 < NOFILE := by
  unfold argfd
  split
  · exact meets_pure fun _ h => nomatch h
  · rename_i hfd
    simp only [not_or, not_lt, ge_iff_le, not_le] at hfd
    refine safe_bind (safe_use hfd.1 hfd.2) fun _ => safe_bind (safe_getOfile p _) fun x => meets_pure fun y hy => ?_
    cases x with
    | none => cases hy
    | some f =>
      cases hy
      show fd.toNat < NOFILE
      omega

theorem meets_fdallocLoop (p : Slot) (f : Nat) {k fd : Nat} (h : fd + k ≤ NOFILE) :
    Meets (fdallocLoop p f k fd) fun x => ∀ y, x = some y → y < NOFILE := by
  induction k generalizing fd with
  | zero => exact meets_pure fun _ h => nomatch h
  | succ k ih =>
    have hu : Safe (use .ofile fd) := safe_ofile (by omega)
    refine safe_bind hu fun _ => safe_bind (safe_getOfile p fd) fun x => ?_
    cases x with
    | none =>
      refine safe_bind hu fun _ => safe_bind (safe_setOfile p fd _) fun _ => meets_pure fun y hy => ?_
      cases hy
      omega
    | some _ => exact ih (by omega)

theorem meets_fdalloc (p : Slot) (f : Nat) : Meets (fdalloc p f) fun x => ∀ y, x = some y → y < NOFILE :=
  meets_fdallocLoop p f (by omega)

theorem meets_devOk (major : Int) : Meets (devOk major) fun b => b = true → 0 ≤ major ∧ major < NDEV := by
  unfold devOk
  split
  · exact meets_pure fun h => nomatch h
  · rename_i h
    simp only [not_or, not_lt, ge_iff_le, not_le] at h
    exact safe_bind (safe_use h.1 h.2) fun _ => meets_pure fun _ => h

/-- The test and the call of `fileread` and of `filewrite`. -/
theorem safe_devsw {major : Int} {c : Tab Unit} (hc : Safe c) : Safe (do if ← devOk major then do use .devsw major; c) := by
  refine meets_bind (meets_devOk major) fun b hb => ?_
  cases b with
  | false => exact meets_pure trivial
  | true => exact safe_bind (safe_use (hb rfl).1 (hb rfl).2) fun _ => hc

theorem safe_fileread (f : Nat) (n : Int) : Safe (fileread f n) := by
  refine safe_bind (safe_getFile f) fun x => ?_
  cases x with
  | none => trivial
  | pipe readable writable =>
    cases readable with
    | false => exact meets_pure trivial
    | true => exact safe_procLoop
  | inode readable writable => exact meets_pure trivial
  | device readable writable major minor =>
    cases readable with
    | false => exact meets_pure trivial
    | true => exact safe_devsw (safe_consoleread minor n)

theorem safe_filewrite (f : Nat) (n : Int) : Safe (filewrite f n) := by
  refine safe_bind (safe_getFile f) fun x => ?_
  cases x with
  | none => trivial
  | pipe readable writable =>
    cases writable with
    | false => exact meets_pure trivial
    | true => exact safe_procLoop
  | inode readable writable => exact meets_pure trivial
  | device readable writable major minor =>
    cases writable with
    | false => exact meets_pure trivial
    | true => exact safe_devsw (safe_consolewrite minor n)

theorem safe_sysRead (p : Slot) (fd n : Int) : Safe (sysRead p fd n) := by
  refine meets_bind (meets_argfd p fd) fun x _ => ?_
  cases x with
  | none => exact meets_pure trivial
  | some y => exact safe_fileread y.2 n

theorem safe_sysWrite (p : Slot) (fd n : Int) : Safe (sysWrite p fd n) := by
  refine meets_bind (meets_argfd p fd) fun x _ => ?_
  cases x with
  | none => exact meets_pure trivial
  | some y => exact safe_filewrite y.2 n

theorem safe_sysFstat (p : Slot) (fd : Int) : Safe (sysFstat p fd) := meets_bind (meets_argfd p fd) fun _ _ => meets_pure trivial

theorem safe_sysClose (p : Slot) (fd : Int) : Safe (sysClose p fd) := by
  refine meets_bind (meets_argfd p fd) fun x hx => ?_
  cases x with
  | none => exact meets_pure trivial
  | some y => exact safe_bind (safe_ofile (hx y rfl)) fun _ => safe_setOfile p _ _

theorem safe_sysDup (p : Slot) (fd : Int) : Safe (sysDup p fd) := by
  refine meets_bind (meets_argfd p fd) fun x _ => ?_
  cases x with
  | none => exact meets_pure trivial
  | some y => exact meets_bind (meets_fdalloc p y.2) fun _ _ => meets_pure trivial

theorem safe_openNode (created : Bool) (i : Inum) : Safe (sysOpen.openNode created i) := by
  cases created with
  | false => exact safe_getNode i
  | true => exact safe_bind (safe_setNode i none) fun _ => meets_pure trivial

theorem safe_openFile (p : Slot) (readable writable : Bool) (node : Option (Int × Int)) (f : Nat) :
    Safe (openFile p readable writable node f) := by
  refine meets_bind (meets_fdalloc p f) fun x _ => ?_
  cases x with
  | none => exact meets_pure trivial
  | some _ =>
    cases node with
    | none => exact safe_setFile f _
    | some d => exact safe_setFile f _

theorem safe_sysOpen (p : Slot) (readable writable created : Bool) : Safe (sysOpen p readable writable created) := by
  refine safe_bind safe_any fun i => ?_
  split
  · exact meets_pure trivial
  refine safe_bind (safe_openNode created _) fun node => ?_
  split
  · exact meets_pure trivial
  refine safe_bind safe_any fun f => ?_
  split
  · exact meets_pure trivial
  · exact safe_openFile p readable writable node _

theorem safe_sysMkdir : Safe sysMkdir := by
  refine safe_bind safe_any fun i => ?_
  split
  · exact meets_pure trivial
  · exact safe_setNode _ _

theorem safe_sysMknod (major minor : Int) : Safe (sysMknod major minor) := by
  refine safe_bind safe_any fun i => ?_
  split
  · exact meets_pure trivial
  · exact safe_setNode _ _

/-- A descriptor is given back. -/
theorem safe_clear (p : Slot) {fd : Nat} (h : fd < NOFILE) : Safe (do use .ofile fd; setOfile p fd none) :=
  safe_bind (safe_ofile h) fun _ => safe_setOfile p fd none

theorem safe_sysPipe (p : Slot) : Safe (sysPipe p) := by
  refine safe_bind safe_any fun rf => safe_bind safe_any fun wf => ?_
  split
  · exact meets_pure trivial
  refine safe_bind (safe_setFile _ _) fun _ => safe_bind (safe_setFile _ _) fun _ => meets_bind (meets_fdalloc p _) fun x hx => ?_
  cases x with
  | none => exact meets_pure trivial
  | some fd0 =>
    have h0 := safe_clear p (hx fd0 rfl)
    refine meets_bind (meets_fdalloc p _) fun y hy => ?_
    cases y with
    | none => exact h0
    | some fd1 =>
      refine safe_bind safe_any fun z => ?_
      split
      · exact meets_pure trivial
      · exact safe_bind (safe_ofile (hx fd0 rfl)) fun _ => safe_bind (safe_setOfile p fd0 none) fun _ => safe_clear p (hy fd1 rfl)

/-! ### Processes -/

theorem safe_fork (p np : Slot) : Safe (Tab.fork p np) := by
  refine safe_eachFrom (n := NOFILE) (fun i hi => ?_) (by omega)
  have hu := safe_ofile hi
  refine safe_bind hu fun _ => safe_bind (safe_getOfile p i) fun x => ?_
  cases x with
  | none => exact meets_pure trivial
  | some f => exact safe_bind hu fun _ => safe_bind hu fun _ => safe_setOfile np i _

theorem safe_exit (p : Slot) : Safe (Tab.exit p) := by
  refine safe_bind (safe_eachFrom (n := NOFILE) (fun i hi => ?_) (by omega)) fun _ => safe_bind safe_procLoop fun _ => safe_procLoop
  have hu := safe_ofile hi
  refine safe_bind hu fun _ => safe_bind (safe_getOfile p i) fun x => ?_
  cases x with
  | none => exact meets_pure trivial
  | some f => exact safe_clear p hi

theorem safe_sproc {slot : Int} (h : 0 ≤ slot ∧ slot < NPROC) : Safe (Tab.sproc slot) := safe_use h.1 h.2

/-- Every system call meets the rule. -/
theorem meets_code (p : Slot) (c : TabCall) (hs : ∀ slot, c = .sproc slot → 0 ≤ slot ∧ slot < NPROC)
    (hc : ∀ n, c = .consw n → 0 ≤ n ∧ n < NCONS) : Safe (c.code p) := by
  cases c with
  | read fd n => exact safe_sysRead p fd n
  | write fd n => exact safe_sysWrite p fd n
  | close fd => exact safe_sysClose p fd
  | dup fd => exact safe_sysDup p fd
  | fstat fd => exact safe_sysFstat p fd
  | «open» readable writable created => exact safe_sysOpen p readable writable created
  | mkdir => exact safe_sysMkdir
  | mknod major minor => exact safe_sysMknod major minor
  | pipe => exact safe_sysPipe p
  | fork np => exact safe_fork p np
  | exit => exact safe_exit p
  | sproc slot => exact safe_sproc (hs slot rfl)
  | consw n => exact safe_consolesw (hc n rfl)
  | procs => exact safe_procLoop

end Tab

open Tab

/-! ### Runs -/

/-- What an operation that is in range gives, and that it leaves the current console in range. -/
theorem Tables.exec_rule {s : Tables} {x : Int} {o : TabOp} {Q : o.Ans → Unit → Prop} (h : rule o Q ())
    (hc : 0 ≤ s.conscur ∧ s.conscur < NCONS) (he : ∀ cnum, o = .enter cnum → 0 ≤ cnum ∧ cnum < NCONS) :
    Q (s.exec x o).1 () ∧ 0 ≤ (s.exec x o).2.conscur ∧ (s.exec x o).2.conscur < NCONS := by
  cases o with
  | use t i => exact ⟨h.2, hc⟩
  | getConscur => exact ⟨h _ hc, hc⟩
  | setConscur n => exact ⟨h.2, h.1⟩
  | enter cnum => exact ⟨h (he cnum rfl), hc⟩
  | _ => exact ⟨h _, hc⟩

namespace TabSys

/-- What the threads have left to do meets the rule. -/
structure Inv (s : TabSys) : Prop where
  conscur : 0 ≤ s.tab.conscur ∧ s.tab.conscur < NCONS
  code : ∀ a, Safe (s.code a)

theorem Init.inv {s : TabSys} (h : s.Init) : s.Inv where
  conscur := by
    rw [h.conscur]
    decide
  code a := by
    rw [h.code]
    exact meets_pure trivial

/-- The code of one thread is replaced. -/
theorem safe_update {code : TabThread → Tab Unit} (h : ∀ a, Safe (code a)) {a : TabThread} {c : Tab Unit} (hc : Safe c) (b : TabThread) :
    Safe (update code a c b) := by
  by_cases hb : b = a
  · subst hb
    rwa [Function.update_self]
  · rw [Function.update_of_ne hb]
    exact h b

theorem step_inv {s t : TabSys} {e : TabEv} (h : s.Inv) (hr : s.InRange e) (hs : step s e = some (.ok t)) : t.Inv := by
  cases e with
  | call p c =>
    simp only [step] at hs
    split at hs
    · cases hs
      refine ⟨h.conscur, safe_update h.code (meets_code p c ?_ ?_)⟩
      · rintro slot rfl
        exact hr
      · rintro n rfl
        exact hr
    · cases hs
  | intr cpu c =>
    simp only [step] at hs
    split at hs
    · cases hs
      exact ⟨h.conscur, safe_update h.code (safe_consoleintr c)⟩
    · cases hs
  | next a x =>
    have ha := h.code a
    simp only [step] at hs
    split at hs
    · cases hs
    · cases hs
    · rename_i o k hk
      cases hs
      rw [hk] at ha
      have hx := Tables.exec_rule (x := x) ha h.conscur fun cnum ho => by
        subst ho
        exact hr cnum k hk
      exact ⟨hx.2, safe_update h.code hx.1⟩

theorem Inv.inBounds {s : TabSys} (h : s.Inv) : s.InBounds where
  conscur := h.conscur
  use a t i k hk := by
    have ha := h.code a
    rw [hk] at ha
    exact ha.1

/-- As long as the slots given to `sproc`, the numbers given to `consw` and the minor numbers of the consoles that are read are in range, so is
every index into the tables. -/
theorem tables_in_range {s : TabSys} (h : ((Lts.ofFun Init step).guard InRange).Reachable s) : s.InBounds :=
  (Lts.Reachable.invariant (L := (Lts.ofFun Init step).guard InRange) (I := Inv) (fun _ => Init.inv)
    (fun _ _ _ hi hs => step_inv hi hs.1 hs.2) h).inBounds

/-- After booting, with nothing on the disk. -/
def boot : TabSys := ⟨⟨0, fun _ _ => none, fun _ => .none, fun _ => none⟩, fun _ => .ret ()⟩

theorem boot_init : boot.Init := ⟨rfl, rfl, rfl, rfl⟩

/-- The test of `InRange` for a state whose next operation is not a call of `consoleread`, or one in range. -/
def inRange (s : TabSys) : TabEv → Bool
  | .call _ (.sproc slot) => decide (0 ≤ slot ∧ slot < NPROC)
  | .call _ (.consw n) => decide (0 ≤ n ∧ n < NCONS)
  | .next a _ =>
    match s.code a with
    | .call (.enter cnum) _ => decide (0 ≤ cnum ∧ cnum < NCONS)
    | _ => true
  | _ => true

theorem inRange_spec (s : TabSys) (e : TabEv) (h : s.inRange e = true) : s.InRange e := by
  cases e with
  | call p c =>
    cases c with
    | sproc slot =>
      show 0 ≤ slot ∧ slot < NPROC
      exact of_decide_eq_true h
    | consw n =>
      show 0 ≤ n ∧ n < NCONS
      exact of_decide_eq_true h
    | _ => trivial
  | intr cpu c => trivial
  | next a x =>
    intro cnum k hk
    simp only [inRange, hk] at h
    exact of_decide_eq_true h

def proc0 : Slot := ⟨0, NPROC_pos⟩

/-- A node of the console `n` is made, opened and read from; the inode and the file are 5 and 3. -/
def consoleRun (n : Int) : List TabEv :=
  let next := TabEv.next (.inl proc0)
  [.call proc0 (.mknod CONSOLE n), next 5, next 0,
    .call proc0 (.open true true false), next 5, next 0, next 3, next 0, next 0, next 0, next 0, next 0,
    .call proc0 (.read 0 1), next 0, next 0, next 0, next 0, next 0, next 0]

/-- Process 0 is about to use the index `i`. -/
def uses (t : KArray) (i : Int) (s : TabSys) : Bool :=
  match s.code (.inl proc0) with
  | .call (.use u j) _ => decide (u = t ∧ j = i)
  | _ => false

theorem not_inBounds {s : TabSys} {t : KArray} {i : Int} (h : s.uses t i = true) (hi : t.size ≤ i) : ¬ s.InBounds := by
  intro hb
  unfold uses at h
  split at h
  · rename_i u j k hk
    obtain ⟨rfl, rfl⟩ := of_decide_eq_true h
    have := hb.use _ _ _ _ hk
    omega
  · cases h

/-- Console 2 is read from. -/
theorem tables_in_range_consoleRun : ∃ s : TabSys, s.uses .cons 2 = true ∧ s.InBounds := by
  have hrun : (Lts.replay step inRange boot (consoleRun 2)).any (uses .cons 2) = true := by decide +kernel
  obtain ⟨s, hs, hu⟩ := Lts.Reachable.replay_any (I := Init) inRange_spec boot_init hrun
  exact ⟨s, hu, tables_in_range hs⟩

theorem replay_out (es : List TabEv) {t : KArray} {i : Int} (h : (Lts.replay step (fun _ _ => true) boot es).any (uses t i) = true)
    (hi : t.size ≤ i) : ∃ s, (Lts.ofFun Init step).Reachable s ∧ s.uses t i = true ∧ ¬ s.InBounds := by
  obtain ⟨s, hs, hu⟩ := Lts.Reachable.replay_any (I := Init) (C := fun _ _ => True) (fun _ _ _ => trivial) boot_init h
  exact ⟨s, hs.of_guard, hu, not_inBounds hu hi⟩

/-- After `sproc(64)`, after `consw(7)`, and when a node of the console 9 is read. -/
theorem tables_out_of_range :
    (∃ s, (Lts.ofFun Init step).Reachable s ∧ s.uses .proc 64 = true ∧ ¬ s.InBounds) ∧
      (∃ s, (Lts.ofFun Init step).Reachable s ∧ s.tab.conscur = 7 ∧ ¬ s.InBounds) ∧
      ∃ s, (Lts.ofFun Init step).Reachable s ∧ s.uses .cons 9 = true ∧ ¬ s.InBounds := by
  refine ⟨replay_out [.call proc0 (.sproc 64)] (by decide +kernel) (by decide), ?_,
    replay_out (consoleRun 9) (by decide +kernel) (by decide)⟩
  have hrun : (Lts.replay step (fun _ _ => true) boot [.call proc0 (.consw 7), .next (.inl proc0) 0]).any
      (fun s => decide (s.tab.conscur = 7)) = true := by decide +kernel
  obtain ⟨s, hs, hu⟩ := Lts.Reachable.replay_any (I := Init) (C := fun _ _ => True) (fun _ _ _ => trivial) boot_init hrun
  have hu := of_decide_eq_true hu
  refine ⟨s, hs.of_guard, hu, fun hb => ?_⟩
  have := hb.conscur.2
  rw [hu] at this
  exact absurd this (by decide)

end TabSys

end Xv6
