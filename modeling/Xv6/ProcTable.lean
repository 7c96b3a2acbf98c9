import Xv6.Lib.Place
import Xv6.ProcView

/-!
# Where the links of the tables are

Each `struct proc` has one link `elem` for `unused_list` and the run lists and one link `elem_c` for the `proc_list` of
its container; each `struct cont` has one link for the two container lists.  A `Table` says, as functions, on which list
each link is or which thread has it in hand; `View.Inv` says that the lists, the states and the roles of the threads
agree with a table.  Being functions, they put every link in exactly one place.
-/

namespace Xv6

/-- What a thread may be doing with the `elem` of a process: it was taken off `unused_list` by `allocproc`, is `USED`, or
is `RUNNABLE` and about to be pushed to its run list by `fork` (`userinit` in `main`), `yield`, `wakeup` or `kill`. -/
inductive Hand
  | taken | made | start | yield | wakeup | kill
  deriving DecidableEq

/-- Where the `elem` of a process is: on `unused_list`, in the hand of a thread, on the run list of its container, taken
off it by the scheduler of a hart, or nowhere, because the process runs, sleeps or is a zombie. -/
inductive Place
  | free
  | hand (k : Hand) (t : Thread)
  | queued
  | popped (k : Fin NCPU)
  | running
  | sleeping
  | zombie
  deriving DecidableEq

def Place.state : Place → ProcState
  | free | hand .taken _ => .unused
  | hand .made _ => .used
  | hand _ _ | queued | popped _ => .runnable
  | running => .running
  | sleeping => .sleeping
  | zombie => .zombie

/-- The slot has no process. -/
def Place.vacant : Place → Bool
  | free | hand .taken _ => true
  | _ => false

/-- The slot has a process that has been made `RUNNABLE` once. -/
def Place.alive : Place → Bool
  | free | hand .taken _ | hand .made _ => false
  | _ => true

inductive AttHand
  | entering | leaving
  deriving DecidableEq

/-- Where the `elem_c` of a process is: on no list and without a container, about to enter a `proc_list` or removed from
it by `freeproc`, or on it. -/
inductive Att
  | out
  | hand (k : AttHand) (t : Thread)
  | member
  deriving DecidableEq

/-- The process counts for its container. -/
def Att.inside : Att → Bool
  | member | hand .entering _ => true
  | _ => false

inductive ContHand
  | taken | made
  deriving DecidableEq

/-- Where the `elem` of a container is: on `cont_unused_list`, in the hands of `alloccont` and `cfork`, on
`cont_run_list`, in the hands of `freeproc`; or nowhere, after an `alloccont` that failed with the lock held. -/
inductive ContPlace
  | free
  | hand (k : ContHand) (t : Thread)
  | live
  | off (t : Thread)
  | kept (t : Thread)
  deriving DecidableEq

/-! ### What a thread has in hand -/

namespace Role

def hand : Role → Hand → Option Slot
  | took _ _ np, .taken | locked _ _ np, .taken => some np
  | made _ _ np, .made | listed _ _ np, .made | grown _ _ np, .made => some np
  | ready _ _ np, .start => some np
  | killing q, .kill => some q
  | _, _ => none

def attHand : Role → AttHand → Option Slot
  | made _ _ np, .entering => some np
  | emptied q, .leaving | contGone q, .leaving | unlinked q, .leaving => some q
  | _, _ => none

def contHand : Role → ContHand → Option ContId
  | contTaken c, .taken => some c
  | contNew c, .made => some c
  | _, _ => none

/-- The container that a `fork` in progress adds to, and whether it is new. -/
def into : Role → Option (ContId × Bool)
  | forking c fr | took c fr _ | locked c fr _ | made c fr _ | listed c fr _ | grown c fr _ | ready c fr _ => some (c, fr)
  | _ => none

/-- The process that a `fork` in progress has attached to its container. -/
def target : Role → Option Slot
  | made _ _ np | listed _ _ np | grown _ _ np | ready _ _ np => some np
  | _ => none

end Role

namespace ThView

def hand (x : ThView) (t : Thread) : Hand → Option Slot
  | .yield => if x.sw = .push then t else none
  | .wakeup => x.waking.join
  | k => x.role.hand k

/-- The thread of a slot without a running process. -/
structure Clean (x : ThView) : Prop where
  role : x.role = .idle
  waking : x.waking = none
  sw : ∃ b, x.sw = .off b
  kept : x.kept = []

end ThView

/-! ### The invariant -/

structure Table where
  place : Slot → Place
  att : Slot → Att
  cont : ContId → ContPlace

namespace View

variable (v : View) (T : Table)

/-- The links `elem` of the processes. -/
structure Elem : Prop where
  unused : OnList v.unused T.place .free
  run : ∀ c, OnList (v.runList c) (fun q => (T.place q, v.contp q)) (.queued, some c)
  hand : Held (fun t => (v.th t).hand t) T.place Place.hand
  popped : ∀ k q, v.cpu k = .popped q ↔ T.place q = .popped k
  state : ∀ q, v.state q = (T.place q).state

/-- The links `elem_c` of the processes. -/
structure Memb : Prop where
  out : ∀ q, v.contp q = none ↔ T.att q = .out
  proc : ∀ c, OnList (v.procList c) (fun q => (T.att q, v.contp q)) (.member, some c)
  hand : Held (fun t => (v.th t).role.attHand) T.att Att.hand
  vacant : ∀ q, (T.place q).vacant → T.att q = .out ∨ (∃ t, T.att q = .hand .leaving t) ∨
    T.att q = .member ∧ ∃ t, (v.th t).role = .freed q
  freed : ∀ t q, (v.th t).role = .freed q → T.att q = .member ∧ (T.place q).vacant
  inside : ∀ q, (T.place q).vacant = false → (T.att q).inside

/-- The links of the containers. -/
structure Conts : Prop where
  unused : OnList v.contUnused T.cont .free
  run : OnList v.contRun T.cont .live
  hand : Held (fun t => (v.th t).role.contHand) T.cont ContPlace.hand
  gone : ∀ t q, (v.th t).role = .contGone q → ∃ c, v.contp q = some c ∧ T.cont c = .off t
  off : ∀ t c, T.cont c = .off t → ∃ q, (v.th t).role = .contGone q ∧ v.contp q = some c
  kept : ∀ t c, c ∈ (v.th t).kept ↔ T.cont c = .kept t
  used : ∀ c, v.used c = true ↔ T.cont c ≠ .free ∧ ∀ t, T.cont c ≠ .hand .taken t

/-- Containers with processes, and containers that a thread adds a process to, are on `cont_run_list`. -/
structure Links : Prop where
  live : ∀ q c, v.contp q = some c → (T.att q).inside → T.cont c = .live
  into : ∀ t c fr, (v.th t).role.into = some (c, fr) → T.cont c = .live
  own : ∀ t c, (v.th t).role.into = some (c, false) →
    t = none ∨ ∃ p, t = some p ∧ v.contp p = some c ∧ T.att p = .member
  fresh : ∀ t c, (v.th t).role.into = some (c, true) → ∀ q, v.contp q = some c → (T.att q).inside →
    (v.th t).role.target = some q
  target : ∀ t c fr q, (v.th t).role.into = some (c, fr) → (v.th t).role.target = some q → v.contp q = some c
  emptied : ∀ t q, (v.th t).role = .emptied q → ∃ c, v.contp q = some c ∧ T.cont c = .live ∧
    (∀ q', v.contp q' = some c → (T.att q').inside = false) ∧ ∀ t' fr, (v.th t').role.into ≠ some (c, fr)
  alone : ∀ t t' c fr, (v.th t).role.into = some (c, true) → (v.th t').role.into = some (c, fr) → t' = t
  once : ∀ t t' q q', (v.th t).role = .emptied q → (v.th t').role = .emptied q' → v.contp q = v.contp q' → t' = t

/-- The first process stays in the root container. -/
structure Init : Prop where
  root : T.cont contRoot = .live
  init : ∀ i, v.initproc = some i →
    T.att i = .member ∧ v.contp i = some contRoot ∧ (T.place i).alive ∧ T.place i ≠ .zombie
  before : v.initproc = none → ∀ q, (T.place q).vacant ∨ T.place q = .hand .made none
  exiting : ∀ p, (v.th (some p)).role = .exiting → v.initproc ≠ some p
  boot : ∀ c fr, (v.th none).role.into = some (c, fr) → c = contRoot ∧ fr = false

/-- The locks of the processes, and the harts. -/
structure Harts : Prop where
  plock : ∀ t t' q, (v.th t).plock t = some q → (v.th t').plock t' = some q → t = t'
  inner : ∀ t, (v.th t).sw ≠ .run → (v.th t).inner = none
  waking : ∀ t, (v.th t).waking ≠ none → (v.th t).role = .idle ∨ (v.th t).role = .exiting
  cpu : ∀ k k' p, v.cpu k = .running p → v.cpu k' = .running p → k = k'
  onCpu : ∀ k p, v.cpu k = .running p → (∀ b, (v.th (some p)).sw ≠ .off b) ∧
    ((v.th (some p)).sw = .run → T.place p = .running) ∧ (T.place p).alive
  clean : ∀ q, (T.place q).alive = false → (v.th (some q)).Clean
  zombie : ∀ q, T.place q = .zombie → (v.th (some q)).role = .idle ∧ (v.th (some q)).waking = none ∧
    (v.th (some q)).sw ≠ .run ∧ (v.th (some q)).sw ≠ .push
  kept : ∀ t b, (v.th t).sw = .off b → (v.th t).kept = []
  boot : (v.th none).sw = .run ∧ (v.th none).waking = none ∧ (v.th none).kept = []

structure Inv : Prop where
  elem : v.Elem T
  memb : v.Memb T
  conts : v.Conts T
  links : v.Links T
  init : v.Init T
  harts : v.Harts T

end View

end Xv6
