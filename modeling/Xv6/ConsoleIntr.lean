import Xv6.Console
import Xv6.Lib.Code
import Xv6.Lib.Lts

/-!
# The locks of the console handler

`consoleintr` on one CPU, with every access to `conscur` and to a console and every operation on a lock a step of its own, while `consw`
changes `conscur` on other CPUs, without a lock, and readers there take the locks of the consoles.  The handler evaluates `conscur`
anew for each access.  It releases what it holds, and changes only what it has locked, as long as `consw` does not switch to another
console from the evaluation for an `acquire` on until that for the `release` (`consoleintr_keeps_its_lock`).
-/

namespace Xv6

open Function (update)
open Ram (NEWLINE)
open ConsBuf (C INPUT_BUF_SIZE slot)

/-- The number of one of the `NCONS` consoles. -/
abbrev ConsNum := Fin 4

inductive IntrOp
  -- `conscur`; `touch` says that the console is then changed, or its lock released
  | getConscur (touch : Bool)
  | setConscur (n : ConsNum)
  -- the lock of a console
  | acquire (k : ConsNum)
  | release (k : ConsNum)
  -- `conscur_lock`
  | acquireCur
  | releaseCur
  -- one field of a console
  | get (k : ConsNum)
  | setE (k : ConsNum) (e : UInt32)
  | setW (k : ConsNum) (w : UInt32)
  | setBuf (k : ConsNum) (i : Fin 512) (c : UInt8)
  -- how many turns a loop takes, at most
  | turns
  -- it takes more turns
  | stuck

def IntrOp.Ans : IntrOp → Type
  | getConscur _ => ConsNum
  | get _ => ConsBuf
  | turns => Nat
  | _ => Unit

/-- The console that an operation changes. -/
def IntrOp.changes : IntrOp → Option ConsNum
  | setE k _ | setW k _ | setBuf k _ _ => some k
  | _ => none

abbrev Intr (α : Type) := Code IntrOp.Ans α

namespace Intr

def look : Intr ConsNum := Code.op (IntrOp.getConscur false)

def touch : Intr ConsNum := Code.op (IntrOp.getConscur true)

def setConscur (n : ConsNum) : Intr Unit := Code.op (IntrOp.setConscur n)

def acquire (k : ConsNum) : Intr Unit := Code.op (IntrOp.acquire k)

def release (k : ConsNum) : Intr Unit := Code.op (IntrOp.release k)

def get (k : ConsNum) : Intr ConsBuf := Code.op (IntrOp.get k)

/-- A field of `cons[conscur]`. -/
def current : Intr ConsBuf := do
  get (← look)

/-- `consolesw`; `printf` evaluates `conscur` again. -/
def consolesw (consnum : ConsNum) : Intr Unit := do
  setConscur consnum
  let _ ← look
  pure ()

def consolenext : Intr Unit := do
  Code.op IntrOp.acquireCur
  setConscur ((← look) + 1)
  Code.op IntrOp.releaseCur
  consolesw (← look)

/-- `cons[conscur].e--`. -/
def erase : Intr Unit := do
  let k ← touch
  Code.op (IntrOp.setE k ((← get k).e - 1))

/-- The loop that kills a line. -/
def killLoop : Nat → Intr Unit
  | 0 => Code.op IntrOp.stuck
  | n + 1 => do
    if (← current).e = (← current).w then pure ()
    else if (← current).buf (slot ((← current).e - 1)) = NEWLINE then pure ()
    else do
      erase
      killLoop n

/-- The line has ended, or the buffer is full. -/
def lineEnds (c : UInt8) : Intr Bool := do
  if c = NEWLINE ∨ c = C 'D' then pure true
  else do
    let e := (← current).e
    let r := (← current).r
    pure (e - r = INPUT_BUF_SIZE)

/-- The character is stored. -/
def store (c : UInt8) : Intr Unit := do
  -- `cons[conscur].buf[cons[conscur].e++ % INPUT_BUF_SIZE] = c`
  let k ← touch
  let j ← touch
  let e := (← get j).e
  Code.op (IntrOp.setE j (e + 1))
  Code.op (IntrOp.setBuf k (slot e) c)
  if ← lineEnds c then do
    let e := (← current).e
    Code.op (IntrOp.setW (← touch) e)
    -- `wakeup(&cons[conscur].r)`
    let _ ← look
    pure ()
  else pure ()

def consoleswitch (c : UInt8) : Intr Unit :=
  if c = C 'T' then do
    release (← touch)
    consolenext
    acquire (← look)
  -- `procdump` and `contdump`
  else if c = C 'P' ∨ c = C 'O' then pure ()
  else if c = C 'U' then do
    killLoop (← Code.op IntrOp.turns)
  else if c = C 'H' ∨ c = 0x7f then do
    if (← current).e = (← current).w then pure () else erase
  else if c = 0 then pure ()
  else do
    let e := (← current).e
    let r := (← current).r
    if e - r < INPUT_BUF_SIZE then store (if c = 13 then NEWLINE else c) else pure ()

def consoleintr (c : UInt8) : Intr Unit := do
  acquire (← look)
  consoleswitch c
  release (← touch)

end Intr

/-- Who holds a lock: the handler, or another CPU. -/
inductive ConsHolder
  | intr
  | cpu (i : Nat)
  deriving DecidableEq

structure IntrSys where
  conscur : ConsNum
  curLock : Bool
  cons : ConsNum → ConsBuf
  lock : ConsNum → Option ConsHolder
  -- what the handler has left to do
  code : Intr Unit

inductive IntrEv
  -- a character comes in
  | intr (c : UInt8)
  -- the next operation of the handler
  | next (turns : Nat)
  -- the assignment of `consw`
  | consw (n : ConsNum)
  -- `consoleread` on another CPU
  | acquire (i : Nat) (k : ConsNum)
  | setR (i : Nat) (k : ConsNum) (r : UInt32)
  | release (i : Nat) (k : ConsNum)

namespace IntrSys

/-- One operation of the handler. -/
def exec (s : IntrSys) (turns : Nat) : (o : IntrOp) → Option (Except String (o.Ans × IntrSys))
  | .getConscur _ => some (.ok (s.conscur, s))
  | .setConscur n => some (.ok ((), { s with conscur := n }))
  | .acquire k =>
    match s.lock k with
    | none => some (.ok ((), { s with lock := update s.lock k (some .intr) }))
    | some .intr => some (.error "acquire")
    | some (.cpu _) => none
  | .release k => if s.lock k = some .intr then some (.ok ((), { s with lock := update s.lock k none })) else some (.error "release")
  | .acquireCur => if s.curLock then some (.error "acquire") else some (.ok ((), { s with curLock := true }))
  | .releaseCur => if s.curLock then some (.ok ((), { s with curLock := false })) else some (.error "release")
  | .get k => some (.ok (s.cons k, s))
  | .setE k e => some (.ok ((), { s with cons := update s.cons k { s.cons k with e := e } }))
  | .setW k w => some (.ok ((), { s with cons := update s.cons k { s.cons k with w := w } }))
  | .setBuf k i c => some (.ok ((), { s with cons := update s.cons k { s.cons k with buf := update (s.cons k).buf i c } }))
  | .turns => some (.ok (turns, s))
  | .stuck => none

def step (s : IntrSys) : IntrEv → Option (Except String IntrSys)
  | .intr c =>
    match s.code with
    | .ret _ => some (.ok { s with code := Intr.consoleintr c })
    | _ => none
  | .next turns =>
    match s.code with
    | .ret _ => none
    | .panic msg => some (.error msg)
    | .call o k => (s.exec turns o).map fun r => r.map fun (x, s) => { s with code := k x }
  | .consw n => some (.ok { s with conscur := n })
  | .acquire i k => if s.lock k = none then some (.ok { s with lock := update s.lock k (some (.cpu i)) }) else none
  | .setR i k r =>
    if s.lock k = some (.cpu i) then some (.ok { s with cons := update s.cons k { s.cons k with r := r } }) else none
  | .release i k => if s.lock k = some (.cpu i) then some (.ok { s with lock := update s.lock k none }) else none

/-- The handler waits for a character, with no lock. -/
structure Init (s : IntrSys) : Prop where
  lock : ∀ k, s.lock k ≠ some .intr
  curLock : s.curLock = false
  code : s.code = .ret ()

/-- The handler has evaluated `conscur` to `k` for an `acquire`, and has not evaluated it for the `release` yet. -/
def Uses (s : IntrSys) (k : ConsNum) : Prop :=
  (∃ f, s.code = .call (.acquire k) f) ∨ (s.lock k = some .intr ∧ ∀ f, s.code ≠ .call (.release k) f)

/-- `consw` does not switch to another console meanwhile. -/
def Steady (s : IntrSys) : IntrEv → Prop
  | .consw n => ∀ k, s.Uses k → n = k
  | _ => True

/-- The handler panics nowhere, releases what it holds, changes what it has locked, and holds nothing when it has returned. -/
structure Proper (s : IntrSys) : Prop where
  noPanic : ∀ turns msg, s.step (.next turns) ≠ some (.error msg)
  release : ∀ k f, s.code = .call (.release k) f → s.lock k = some .intr
  change : ∀ o f k, s.code = .call o f → o.changes = some k → s.lock k = some .intr
  returned : s.code = .ret () → ∀ k, s.lock k ≠ some .intr

end IntrSys

/-! ### What the handler holds -/

namespace Intr

/-- The console that is locked, whether `conscur_lock` is, and what `conscur` has just been evaluated to. -/
structure Held where
  lock : Option ConsNum
  cur : Bool
  seen : Option ConsNum

/-- What an operation needs and what it gives. -/
def rule : Code.Rule IntrOp.Ans Held := fun o Q g =>
  match o with
  | .getConscur true => ∃ k : ConsNum, g.lock = some k ∧ Q k ⟨g.lock, g.cur, none⟩
  | .getConscur false => ∀ k : ConsNum, Q k ⟨g.lock, g.cur, some k⟩
  | .setConscur _ => g.lock = none ∧ Q () ⟨g.lock, g.cur, none⟩
  | .acquire k => g.lock = none ∧ g.seen = some k ∧ Q () ⟨some k, g.cur, none⟩
  | .release k => g.lock = some k ∧ Q () ⟨none, g.cur, none⟩
  | .acquireCur => g.cur = false ∧ Q () ⟨g.lock, true, none⟩
  | .releaseCur => g.cur = true ∧ Q () ⟨g.lock, false, none⟩
  | .get _ => ∀ x : ConsBuf, Q x ⟨g.lock, g.cur, none⟩
  | .setE k _ | .setW k _ | .setBuf k _ _ => g.lock = some k ∧ Q () ⟨g.lock, g.cur, none⟩
  | .turns => ∀ n : Nat, Q n ⟨g.lock, g.cur, none⟩
  | .stuck => True

/-- No code panics. -/
abbrev wp {α : Type} (p : Intr α) (Q : α → Held → Prop) (g : Held) : Prop := Code.wp rule (fun _ => False) p Q g

variable {α β : Type} {k : ConsNum} {b : Bool} {l v : Option ConsNum} {Q : β → Held → Prop}

theorem look_wp {f : ConsNum → Intr β} (h : ∀ k, wp (f k) Q ⟨l, b, some k⟩) : wp (look >>= f) Q ⟨l, b, v⟩ := h

theorem current_wp {f : ConsBuf → Intr β} (h : ∀ x, wp (f x) Q ⟨l, b, none⟩) : wp (current >>= f) Q ⟨l, b, v⟩ := fun _ => h

theorem touch_wp {f : ConsNum → Intr β} (h : wp (f k) Q ⟨some k, b, none⟩) : wp (touch >>= f) Q ⟨some k, b, v⟩ := ⟨k, rfl, h⟩

theorem get_wp {f : ConsBuf → Intr β} {j : ConsNum} (h : ∀ x, wp (f x) Q ⟨l, b, none⟩) : wp (get j >>= f) Q ⟨l, b, v⟩ := h

theorem acquire_wp {Q : Unit → Held → Prop} (h : Q () ⟨some k, b, none⟩) : wp (acquire k) Q ⟨none, b, some k⟩ := ⟨rfl, rfl, h⟩

theorem release_wp {Q : Unit → Held → Prop} (h : Q () ⟨none, b, none⟩) : wp (release k) Q ⟨some k, b, v⟩ := ⟨rfl, h⟩

theorem erase_wp {f : Unit → Intr β} (h : wp (f ()) Q ⟨some k, b, none⟩) : wp (erase >>= f) Q ⟨some k, b, v⟩ :=
  touch_wp (k := k) (f := fun k => do
    let x ← get k
    Code.op (IntrOp.setE k (x.e - 1))
    f ()) (get_wp fun _ => ⟨rfl, h⟩)

theorem killLoop_wp (n : Nat) {Q : Unit → Held → Prop} (h : ∀ v, Q () ⟨some k, b, v⟩) : wp (killLoop n) Q ⟨some k, b, v⟩ := by
  induction n generalizing v with
  | zero => trivial
  | succ n ih =>
    unfold killLoop
    refine current_wp fun x => current_wp fun y => ?_
    split
    · exact h none
    · refine current_wp fun x => current_wp fun y => ?_
      split
      · exact h none
      · exact erase_wp ih

theorem lineEnds_wp {c : UInt8} {f : Bool → Intr β} (h : ∀ a v, wp (f a) Q ⟨l, b, v⟩) : wp (lineEnds c >>= f) Q ⟨l, b, v⟩ := by
  rw [wp, Code.wp_bind]
  unfold lineEnds
  split
  · exact h true v
  · exact current_wp fun x => current_wp fun y => h _ none

theorem store_wp {c : UInt8} {Q : Unit → Held → Prop} (h : ∀ v, Q () ⟨some k, b, v⟩) : wp (store c) Q ⟨some k, b, v⟩ := by
  unfold store
  refine touch_wp (touch_wp (get_wp fun x => ⟨rfl, rfl, lineEnds_wp fun ends v => ?_⟩))
  cases ends with
  | false => exact h v
  | true => exact current_wp fun y => touch_wp ⟨rfl, look_wp fun j => h (some j)⟩

theorem consolenext_wp {f : Unit → Intr β} (h : ∀ v, wp (f ()) Q ⟨none, false, v⟩) : wp (consolenext >>= f) Q ⟨none, false, v⟩ :=
  ⟨rfl, fun _ => ⟨rfl, rfl, fun _ => ⟨rfl, fun j => h (some j)⟩⟩⟩

/-- The handler gives back the console that it has locked, or another one instead. -/
theorem consoleswitch_wp (c : UInt8) {Q : Unit → Held → Prop} (h : ∀ k v, Q () ⟨some k, false, v⟩) :
    wp (consoleswitch c) Q ⟨some k, false, v⟩ := by
  unfold consoleswitch
  split
  · refine touch_wp ?_
    rw [wp, Code.wp_bind]
    exact release_wp (consolenext_wp fun v => look_wp fun k => acquire_wp (h k none))
  split
  · exact h k v
  split
  · exact fun n => killLoop_wp n (h k)
  split
  · refine current_wp fun x => current_wp fun y => ?_
    split
    · exact h k none
    · exact erase_wp (f := pure) (h k none)
  split
  · exact h k v
  · refine current_wp fun x => current_wp fun y => ?_
    dsimp only
    split
    · exact store_wp (h k)
    · exact h k none

theorem consoleintr_wp (c : UInt8) : wp (consoleintr c) (fun _ g => g.lock = none ∧ g.cur = false) ⟨none, false, v⟩ := by
  unfold consoleintr
  refine look_wp fun k => ?_
  rw [wp, Code.wp_bind]
  refine acquire_wp ?_
  rw [Code.wp_bind]
  exact consoleswitch_wp c fun k v => touch_wp (release_wp ⟨rfl, rfl⟩)

end Intr

namespace IntrSys

open Intr (rule)

variable {s t : IntrSys} {g : Intr.Held}

/-- The handler holds the locks of `g`. -/
structure Agrees (s : IntrSys) (g : Intr.Held) : Prop where
  lock : ∀ k, s.lock k = some .intr ↔ g.lock = some k
  curLock : s.curLock = g.cur

/-- What an operation of the handler does to `conscur` and to the console that is locked. -/
structure Keeps (s : IntrSys) (g : Intr.Held) (o : IntrOp) (s' : IntrSys) (g' : Intr.Held) : Prop where
  same : g'.lock ≠ none → s'.conscur = s.conscur
  seen : ∀ k, g'.seen = some k → s'.conscur = k
  lock : ∀ k, g'.lock = some k → o = .acquire k ∨ (g.lock = some k ∧ ∀ j, o ≠ .release j)

/-- An operation that leaves `conscur` and the lock alone. -/
theorem keeps_of {o : IntrOp} {s' : IntrSys} {b : Bool} (hcur : s'.conscur = s.conscur) (ho : ∀ j, o ≠ .release j) :
    s.Keeps g o s' ⟨g.lock, b, none⟩ := ⟨fun _ => hcur, nofun, fun _ hk => .inr ⟨hk, ho⟩⟩

/-- An operation that meets the rule does not panic, and the handler holds what the rule says. -/
theorem exec_rule (h : s.Agrees g) {o : IntrOp} {Q : o.Ans → Intr.Held → Prop} (hr : rule o Q g)
    (hs : o = .getConscur true → s.lock s.conscur = some .intr) (turns : Nat) :
    s.exec turns o = none ∨
      ∃ x s' g', s.exec turns o = some (.ok (x, s')) ∧ s'.Agrees g' ∧ Q x g' ∧ s.Keeps g o s' g' := by
  cases o with
  | getConscur touch =>
    cases touch with
    | false => exact .inr ⟨_, _, ⟨g.lock, g.cur, some s.conscur⟩, rfl, ⟨h.lock, h.curLock⟩, hr s.conscur,
        fun _ => rfl, fun _ => Option.some.inj, fun _ hk => .inr ⟨hk, fun _ ho => by cases ho⟩⟩
    | true =>
      obtain ⟨k, hk, hQ⟩ := hr
      obtain rfl : k = s.conscur := Option.some.inj (hk.symm.trans ((h.lock _).1 (hs rfl)))
      exact .inr ⟨_, _, ⟨g.lock, g.cur, none⟩, rfl, ⟨h.lock, h.curLock⟩, hQ, keeps_of rfl fun _ ho => by cases ho⟩
  | setConscur n => exact .inr ⟨_, _, ⟨g.lock, g.cur, none⟩, rfl, ⟨h.lock, h.curLock⟩, hr.2, fun hk => absurd hr.1 hk, nofun,
      fun _ hk => .inr ⟨hk, fun _ ho => by cases ho⟩⟩
  | acquire k =>
    obtain ⟨hnone, -, hQ⟩ := hr
    simp only [exec]
    cases hk : s.lock k with
    | none =>
      refine .inr ⟨(), _, ⟨some k, g.cur, none⟩, rfl, ⟨fun j => ?_, h.curLock⟩, hQ, fun _ => rfl, nofun, fun j hj => .inl ?_⟩
      · show update s.lock k (some .intr) j = some .intr ↔ some k = some j
        by_cases hj : j = k
        · rw [hj, Function.update_self]
          exact iff_of_true rfl rfl
        · rw [Function.update_of_ne hj, h.lock, hnone]
          exact iff_of_false (fun hc => by cases hc) fun hc => hj (Option.some.inj hc).symm
      · rw [Option.some.inj hj]
    | some c =>
      cases c with
      | intr =>
        rw [(h.lock k).1 hk] at hnone
        cases hnone
      | cpu i => exact .inl rfl
  | release k =>
    obtain ⟨hk, hQ⟩ := hr
    refine .inr ⟨(), _, ⟨none, g.cur, none⟩, if_pos ((h.lock k).2 hk), ⟨fun j => ?_, h.curLock⟩, hQ, fun hn => absurd rfl hn, nofun, nofun⟩
    show update s.lock k none j = some .intr ↔ none = some j
    by_cases hj : j = k
    · rw [hj, Function.update_self]
      exact iff_of_false (fun hc => by cases hc) fun hc => by cases hc
    · rw [Function.update_of_ne hj, h.lock, hk]
      exact iff_of_false (fun hc => hj (Option.some.inj hc).symm) fun hc => by cases hc
  | acquireCur =>
    obtain ⟨hfree, hQ⟩ := hr
    refine .inr ⟨(), _, ⟨g.lock, true, none⟩, if_neg ?_, ⟨h.lock, rfl⟩, hQ, keeps_of rfl fun _ ho => by cases ho⟩
    rw [h.curLock, hfree]
    exact Bool.false_ne_true
  | releaseCur =>
    obtain ⟨hheld, hQ⟩ := hr
    exact .inr ⟨(), _, ⟨g.lock, false, none⟩, if_pos (h.curLock.trans hheld), ⟨h.lock, rfl⟩, hQ,
      keeps_of rfl fun _ ho => by cases ho⟩
  | get k => exact .inr ⟨_, _, ⟨g.lock, g.cur, none⟩, rfl, ⟨h.lock, h.curLock⟩, hr _, keeps_of rfl fun _ ho => by cases ho⟩
  | setE k e => exact .inr ⟨_, _, ⟨g.lock, g.cur, none⟩, rfl, ⟨h.lock, h.curLock⟩, hr.2, keeps_of rfl fun _ ho => by cases ho⟩
  | setW k w => exact .inr ⟨_, _, ⟨g.lock, g.cur, none⟩, rfl, ⟨h.lock, h.curLock⟩, hr.2, keeps_of rfl fun _ ho => by cases ho⟩
  | setBuf k i c => exact .inr ⟨_, _, ⟨g.lock, g.cur, none⟩, rfl, ⟨h.lock, h.curLock⟩, hr.2, keeps_of rfl fun _ ho => by cases ho⟩
  | turns => exact .inr ⟨_, _, ⟨g.lock, g.cur, none⟩, rfl, ⟨h.lock, h.curLock⟩, hr turns, keeps_of rfl fun _ ho => by cases ho⟩
  | stuck => exact .inl rfl

/-- What the handler has left to do meets the rule, and the console that it uses is the current one. -/
def Inv (s : IntrSys) : Prop :=
  (∃ g, s.Agrees g ∧ Intr.wp s.code (fun _ g => g.lock = none ∧ g.cur = false) g) ∧ ∀ k, s.Uses k → s.conscur = k

/-- A handler that is at no `acquire` and holds no lock uses no console. -/
theorem uses_none (hl : ∀ k, s.lock k ≠ some .intr) (hc : ∀ k f, s.code ≠ .call (.acquire k) f) (k : ConsNum) : ¬s.Uses k := by
  rintro (⟨f, hf⟩ | ⟨hk, -⟩)
  · exact hc k f hf
  · exact hl k hk

theorem Init.inv (h : s.Init) : s.Inv := by
  refine ⟨⟨⟨none, false, none⟩, ⟨fun k => iff_of_false (h.lock k) (Option.some_ne_none k).symm, h.curLock⟩, ?_⟩, fun k hk => ?_⟩
  · rw [h.code]
    exact ⟨rfl, rfl⟩
  · refine absurd hk (uses_none h.lock (fun j f hc => ?_) k)
    rw [h.code] at hc
    cases hc

/-- Where the handler evaluates `conscur` for a change or a release, it is the console that it has locked. -/
theorem Inv.evaluates (h : s.Inv) (hg : s.Agrees g) {o : IntrOp} {f : o.Ans → Intr Unit} (hc : s.code = .call o f)
    {Q : o.Ans → Intr.Held → Prop} (hr : rule o Q g) : o = .getConscur true → s.lock s.conscur = some .intr := by
  rintro rfl
  obtain ⟨k, hk, -⟩ := hr
  have hlock := (hg.lock k).2 hk
  have huses : s.Uses k := .inr ⟨hlock, fun f' hf => by rw [hc] at hf; cases hf⟩
  rw [h.2 k huses]
  exact hlock

/-- The locks of other CPUs are not the handler's. -/
theorem Agrees.update (h : s.Agrees g) {k : ConsNum} (hk : s.lock k ≠ some .intr) {x : Option ConsHolder} (hx : x ≠ some .intr) :
    Agrees { s with lock := update s.lock k x } g := by
  refine ⟨fun j => ?_, h.curLock⟩
  show Function.update s.lock k x j = some .intr ↔ g.1 = some j
  by_cases hj : j = k
  · rw [hj, Function.update_self, ← h.lock]
    exact iff_of_false hx hk
  · rw [Function.update_of_ne hj, h.lock]

/-- The next operation of the handler. -/
theorem next_inv (h : s.Inv) {turns : Nat} {r : Except String IntrSys} (hst : s.step (.next turns) = some r) :
    ∃ t, r = .ok t ∧ t.Inv := by
  obtain ⟨g, hg, hcode⟩ := h.1
  simp only [step] at hst
  cases hc : s.code with
  | ret a =>
    rw [hc] at hst
    cases hst
  | panic msg =>
    rw [hc] at hcode
    exact hcode.elim
  | call o f =>
    rw [hc] at hst hcode
    dsimp only at hst
    rcases exec_rule hg hcode (h.evaluates hg hc hcode) turns with hex | ⟨x, s', g', hex, hg', hQ, hkeep⟩
    · rw [hex] at hst
      cases hst
    · rw [hex] at hst
      obtain rfl := Option.some.inj hst
      refine ⟨_, rfl, ⟨g', ⟨hg'.lock, hg'.curLock⟩, hQ⟩, fun k hk => ?_⟩
      rcases hk with ⟨f', hf⟩ | ⟨hk, -⟩
      · -- the evaluation for the `acquire`
        have hf : f x = .call (.acquire k) f' := hf
        rw [hf] at hQ
        exact hkeep.seen k hQ.2.1
      · have hlock := (hg'.lock k).1 hk
        rw [show ({ s' with code := f x } : IntrSys).conscur = s.conscur from hkeep.same (by rw [hlock]; exact Option.some_ne_none k)]
        refine h.2 k ?_
        rcases hkeep.lock k hlock with rfl | ⟨hold, hno⟩
        · exact .inl ⟨f, hc⟩
        · refine .inr ⟨(hg.lock k).2 hold, fun f' hf => ?_⟩
          rw [hc] at hf
          cases hf
          exact hno k rfl

/-- A step of another CPU that changes one lock, which is not the handler's. -/
theorem Inv.other (h : s.Inv) {k : ConsNum} (hk : s.lock k ≠ some .intr) {x : Option ConsHolder} (hx : x ≠ some .intr) :
    Inv { s with lock := update s.lock k x } := by
  obtain ⟨⟨g, hg, hcode⟩, huses⟩ := h
  refine ⟨⟨g, hg.update hk hx, hcode⟩, fun j hj => huses j (hj.imp id fun ⟨hl, hr⟩ => ⟨?_, hr⟩)⟩
  exact (hg.lock j).2 (((hg.update hk hx).lock j).1 hl)

theorem step_inv (h : s.Inv) {e : IntrEv} (hs : s.Steady e) (hst : s.step e = some (.ok t)) : t.Inv := by
  cases e with
  | intr c =>
    obtain ⟨⟨g, hg, hcode⟩, -⟩ := h
    simp only [step] at hst
    split at hst
    · rename_i a ha
      obtain rfl := Except.ok.inj (Option.some.inj hst)
      rw [ha] at hcode
      obtain ⟨hlock, hcur⟩ := hcode
      have hfree : ∀ k, s.lock k ≠ some .intr := fun k hk => by
        rw [(hg.lock k).1 hk] at hlock
        cases hlock
      refine ⟨⟨⟨none, false, none⟩, ⟨fun k => ?_, hg.curLock.trans hcur⟩, Intr.consoleintr_wp c⟩, fun k hk => ?_⟩
      · exact iff_of_false (hfree k) (Option.some_ne_none k).symm
      · refine absurd hk (uses_none (s := { s with code := Intr.consoleintr c }) hfree (fun j f hc => ?_) k)
        cases hc
    · cases hst
  | next turns =>
    obtain ⟨t', ht, hinv⟩ := next_inv h hst
    obtain rfl := Except.ok.inj ht
    exact hinv
  | consw n =>
    obtain ⟨⟨g, hg, hcode⟩, -⟩ := h
    obtain rfl := Except.ok.inj (Option.some.inj hst)
    exact ⟨⟨g, ⟨hg.lock, hg.curLock⟩, hcode⟩, fun k hk => hs k hk⟩
  | acquire i k =>
    simp only [step] at hst
    split at hst
    · rename_i hk
      obtain rfl := Except.ok.inj (Option.some.inj hst)
      exact h.other (by simp [hk]) (by simp)
    · cases hst
  | setR i k r =>
    obtain ⟨⟨g, hg, hcode⟩, huses⟩ := h
    simp only [step] at hst
    split at hst
    · obtain rfl := Except.ok.inj (Option.some.inj hst)
      exact ⟨⟨g, ⟨hg.lock, hg.curLock⟩, hcode⟩, huses⟩
    · cases hst
  | release i k =>
    simp only [step] at hst
    split at hst
    · rename_i hk
      obtain rfl := Except.ok.inj (Option.some.inj hst)
      exact h.other (by simp [hk]) (by simp)
    · cases hst

theorem Inv.proper (h : s.Inv) : s.Proper := by
  obtain ⟨g, hg, hcode⟩ := h.1
  constructor
  · intro turns msg hst
    obtain ⟨t, ht, -⟩ := next_inv h hst
    cases ht
  · intro k f hc
    rw [hc] at hcode
    exact (hg.lock k).2 hcode.1
  · intro o f k hc ho
    rw [hc] at hcode
    cases o with
    | setE j e =>
      obtain rfl := Option.some.inj ho
      exact (hg.lock j).2 hcode.1
    | setW j w =>
      obtain rfl := Option.some.inj ho
      exact (hg.lock j).2 hcode.1
    | setBuf j i c =>
      obtain rfl := Option.some.inj ho
      exact (hg.lock j).2 hcode.1
    | _ => cases ho
  · intro hc k hk
    rw [hc] at hcode
    obtain ⟨hlock, -⟩ := hcode
    rw [(hg.lock k).1 hk] at hlock
    cases hlock

end IntrSys

/-- The system of the handler and the other CPUs. -/
def intrLts : Lts IntrSys IntrEv := .ofFun IntrSys.Init IntrSys.step

/-- As long as `consw` does not switch to another console between the evaluation for an `acquire` and that for the `release`, the handler
releases what it holds and changes what it has locked. -/
theorem consoleintr_keeps_its_lock {s : IntrSys} (hs : (intrLts.guard IntrSys.Steady).Reachable s) : s.Proper :=
  IntrSys.Inv.proper (Lts.Reachable.invariant (L := intrLts.guard IntrSys.Steady) (fun _ => IntrSys.Init.inv)
    (fun _ _ _ hi hst => IntrSys.step_inv hi hst.1 hst.2) hs)

namespace IntrSys

/-- Console 0 is the current one, and nobody has a lock. -/
def sampleIntr : IntrSys := ⟨0, false, fun _ => ⟨⟨0, 0⟩, 0, fun _ => 0⟩, fun _ => none, .ret ()⟩

theorem sampleIntr_init : sampleIntr.Init := ⟨fun _ => (Option.some_ne_none _).symm, rfl, rfl⟩

/-- The test of `Steady`. -/
def steady (s : IntrSys) : IntrEv → Bool
  | .consw n =>
    match s.code with
    | .call (.acquire k) _ => decide (n = k ∧ ∀ j, s.lock j = some .intr → n = j)
    | .call (.release k) _ => decide (∀ j, s.lock j = some .intr → j ≠ k → n = j)
    | _ => decide (∀ j, s.lock j = some .intr → n = j)
  | _ => true

theorem steady_of_test {s : IntrSys} {e : IntrEv} (h : s.steady e = true) : s.Steady e := by
  cases e with
  | consw n =>
    rintro k (⟨f, hc⟩ | ⟨hl, hc⟩)
    · simp only [steady, hc] at h
      exact (of_decide_eq_true h).1
    · unfold steady at h
      dsimp only at h
      split at h
      · exact (of_decide_eq_true h).2 k hl
      · rename_i j f hj
        refine of_decide_eq_true h k hl fun hk => hc f ?_
        rw [hj, hk]
      · exact of_decide_eq_true h k hl
  | _ => trivial

/-- The handler is about to release the lock of a console. -/
def releases (s : IntrSys) : Option ConsNum :=
  match s.code with
  | .call (.release k) _ => some k
  | _ => none

/-- A control-T while `consw` switches as well: the handler releases the lock of the console that it has locked then. -/
theorem keeps_its_lock_ctrlT : ∃ s : IntrSys, s.releases = some 3 ∧ s.Proper := by
  have hrun : (Lts.replay (fun s e => s.step e) steady sampleIntr ([.intr 20, .next 0, .next 0, .next 0, .next 0, .consw 3] ++
      List.replicate 7 (.next 0) ++ [.consw 3] ++ List.replicate 3 (.next 0))).any (fun s => s.releases = some 3) = true := by
    decide +kernel
  obtain ⟨s, hs, hrel⟩ := Lts.Reachable.replay_any (C := Steady) (fun _ _ => steady_of_test) sampleIntr_init hrun
  exact ⟨s, by simpa using hrel, consoleintr_keeps_its_lock hs⟩

/-- `consw` switches while the handler has the lock of the console before. -/
theorem releases_another : ¬∀ s, intrLts.Reachable s → s.Proper := by
  intro h
  have hrun : (Lts.replay (fun s e => s.step e) (fun _ _ => true) sampleIntr
      [.intr 0, .next 0, .next 0, .consw 1, .next 0]).any (fun s => s.releases = some 1 ∧ s.lock 1 = none) = true := by
    decide +kernel
  obtain ⟨s, hs, hrel⟩ := Lts.Reachable.replay_any (C := fun _ _ => True) (fun _ _ _ => trivial) sampleIntr_init hrun
  obtain ⟨hrel, hlock⟩ : s.releases = some 1 ∧ s.lock 1 = none := by simpa using hrel
  unfold releases at hrel
  split at hrel
  · rename_i k f hc
    obtain rfl := Option.some.inj hrel
    have hheld := (h s hs.of_guard).release _ f hc
    rw [hlock] at hheld
    cases hheld
  · cases hrel

end IntrSys

end Xv6
