import Xv6.DirAct
import Xv6.DirRes
import Xv6.Lib.Held

/-!
# References and changes

`Acc` relates the counts of inodes and files to what the processes hold.  `Change` lists what the operations do to the inodes; an
invariant of the inodes that every `Change` keeps holds in every state of every run (`dir_invariant`).
-/

namespace Xv6

open Function (update)

/-- The links that are counted and not yet entered. -/
abbrev Links := Inum → Nat

/-- A condition on the steps: on the inodes and the operation. -/
abbrev DirCond := (Inum → Node) → DirOp → Prop

/-- What an operation does to the inodes, their references and the counted links, if it meets the condition `G`. -/
inductive Change (N : Nat) (G : DirCond) : Dirs × Links → Dirs × Links → Prop
  | same {d d' : Dirs} {L : Links} (hn : d'.node = d.node) (hr : d'.ref = d.ref) (hv : d'.valid = d.valid) : Change N G (d, L) (d', L)
  | got {d : Dirs} {L : Links} {i : Inum}
      (h : i = ROOTINO ∨ ∃ dp, (d.node dp).type = .dir ∧ ∃ de ∈ (d.node dp).live, de.inum = i) : Change N G (d, L) (d.got i, L)
  | dup {d : Dirs} {L : Links} {i : Inum} (h : 0 < d.ref i) : Change N G (d, L) (d.setRef i (d.ref i + 1), L)
  | put {d : Dirs} {L : Links} (i : Inum) : Change N G (d, L) (d.put i, L)
  | lock {d : Dirs} {L : Links} {i : Inum} (h : d.Lockable i) : Change N G (d, L) (d.lock i, L)
  | touch {d d' : Dirs} {L : Links} (h : Dir.Touched d d') : Change N G (d, L) (d', L)
  | data {d : Dirs} {L : Links} {i : Inum} (h : d.Lockable i) (x : List UInt8) :
      Change N G (d, L) ((d.lock i).setNode i { d.node i with data := x }, L)
  | up {d : Dirs} {L : Links} {i : Inum} (hg : G d.node (.linkUp i)) (hl : d.Lockable i) (ht : (d.node i).type ≠ .dir) :
      Change N G (d, L) ((d.lock i).addLink i 1, update L i (L i + 1))
  | down {d : Dirs} {L : Links} {i : Inum} (hl : d.Lockable i) (h : 0 < L i) :
      Change N G (d, L) ((d.lock i).addLink i (-1), update L i (L i - 1))
  | link {d : Dirs} {L : Links} {dp i : Inum} {name : Name} {ents : List Dirent} (hg : G d.node (.linkIn dp name i))
      (hl : d.Lockable dp) (ht : (d.node dp).type = .dir) (h : 0 < L i) (hn : (d.node dp).NoName name)
      (ha : (d.node dp).Added ⟨i, name⟩ ents) : Change N G (d, L) ((d.lock dp).setEnts dp ents, update L i (L i - 1))
  | unlink {d : Dirs} {L : Links} {dp i : Inum} {name : Name} {l₁ l₂ : List Dirent} (hg : G d.node (.unlinkIn dp name))
      (hl : d.Lockable dp) (ht : (d.node dp).type = .dir) (h1 : name ≠ Dir.dot) (h2 : name ≠ Dir.dotdot) (h : 1 ≤ (d.node i).nlink)
      (he : (d.node i).type = .dir → (d.node i).isEmpty) (hi : i ≠ 0) (hli : ((d.lock dp).got i).Lockable i)
      (hents : (d.node dp).ents = l₁ ++ ⟨i, name⟩ :: l₂) : Change N G (d, L) (Dir.unlinked d dp i (l₁ ++ ⟨0, []⟩ :: l₂), L)
  | scrap {d : Dirs} {L : Links} {dp i : Inum} {name : Name} {type : Ftype} {major minor : Int} {x : Node}
      (hg : G d.node (.createIn dp name type major minor)) (hl : d.Lockable dp) (ht : (d.node dp).type = .dir) (hty : type ≠ .free)
      (hf : (d.node i).type = .free) (hi : i ≠ 0) (hN : i < N) (hx : Dir.Scrapped dp i type x) :
      Change N G (d, L) ((Dir.born d dp i x).put i, L)
  | made {d : Dirs} {L : Links} {dp i : Inum} {name : Name} {type : Ftype} {major minor : Int} {ents : List Dirent}
      (hg : G d.node (.createIn dp name type major minor)) (hl : d.Lockable dp) (ht : (d.node dp).type = .dir) (hty : type ≠ .free)
      (hf : (d.node i).type = .free) (hi : i ≠ 0) (hN : i < N) (hn : (d.node dp).NoName name)
      (ha : (d.node dp).Added ⟨i, name⟩ ents) :
      Change N G (d, L) (Dir.made d dp i (Dir.newNode dp i type major minor) ents, L)

/-- A sequence of changes. -/
abbrev Changes (N : Nat) (G : DirCond) := Relation.ReflTransGen (Change N G)

theorem Changes.one {N : Nat} {G : DirCond} {x y : Dirs × Links} (h : Change N G x y) : Changes N G x y := .single h

/-! ### Counts -/

/-- The files that refer to inode `i`. -/
def Dirs.onFiles (d : Dirs) (i : Inum) : Nat := ∑ f, if (d.file f).ip = some i then 1 else 0

/-- The counts are the numbers of holders; `H` says how often each thing is held. -/
structure DAcc (k : DirK) (H : Hold → Nat) : Prop where
  refs : ∀ i, k.d.ref i = H (.ref i) + k.conts.count i + k.d.onFiles i
  files : ∀ f, (k.d.file f).ref = H (.file f) + H (.fresh f)
  fresh : ∀ f, 0 < H (.fresh f) → (k.d.file f).ref = 1 ∧ (k.d.file f).ip = none
  closed : ∀ f, (k.d.file f).ref = 0 → (k.d.file f).ip = none

namespace DAcc

variable {k k' : DirK} {H H' : Hold → Nat} {i : Inum} {f : Fin NFILE}

/-- The files stay as they are. -/
theorem keep (h : DAcc k H) (hfile : k'.d.file = k.d.file) (hf : ∀ f, H' (.file f) = H (.file f))
    (hfr : ∀ f, H' (.fresh f) = H (.fresh f))
    (hr : ∀ i, k'.d.ref i + H (.ref i) + k.conts.count i = k.d.ref i + H' (.ref i) + k'.conts.count i) : DAcc k' H' where
  refs i := by
    have h1 := h.refs i
    have h2 := hr i
    unfold Dirs.onFiles at h1 ⊢
    rw [hfile]
    omega
  files f := by rw [hfile, hf, hfr, h.files]
  fresh f hp := by
    rw [hfr] at hp
    rw [hfile]
    exact h.fresh f hp
  closed f hz := by
    rw [hfile] at hz ⊢
    exact h.closed f hz

theorem ref_pos (h : DAcc k H) (hp : 0 < H (.ref i)) : 0 < k.d.ref i := by
  have := h.refs i
  omega

/-- One file changes, and with it the inodes it refers to. -/
theorem setFile (h : DAcc k H) {x : OpenFile} (hk : k' = { k with d := k.d.setFile f x })
    (href : ∀ i, H' (.ref i) + (if x.ip = some i then 1 else 0) = H (.ref i) + (if (k.d.file f).ip = some i then 1 else 0))
    (hne : ∀ f' ≠ f, H' (.file f') = H (.file f') ∧ H' (.fresh f') = H (.fresh f')) (hx : x.ref = H' (.file f) + H' (.fresh f))
    (hfr : 0 < H' (.fresh f) → x.ref = 1 ∧ x.ip = none) (hz : x.ref = 0 → x.ip = none) : DAcc k' H' := by
  subst hk
  refine ⟨fun i => ?_, fun f' => ?_, fun f' hp => ?_, fun f' hz' => ?_⟩
  · have h1 := h.refs i
    have h2 := sum_update (fun y : OpenFile => if y.ip = some i then 1 else 0) k.d.file f x
    have h3 := href i
    unfold Dirs.onFiles at h1 ⊢
    change k.d.ref i = H' (.ref i) + k.conts.count i + ∑ f', if (update k.d.file f x f').ip = some i then 1 else 0
    omega
  · by_cases he : f' = f
    · subst he
      simpa [Dirs.setFile] using hx
    · simp only [Dirs.setFile, Function.update_of_ne he]
      rw [(hne f' he).1, (hne f' he).2, h.files]
  · by_cases he : f' = f
    · subst he
      simpa [Dirs.setFile] using hfr hp
    · rw [(hne f' he).2] at hp
      simpa [Dirs.setFile, Function.update_of_ne he] using h.fresh f' hp
  · by_cases he : f' = f
    · subst he
      simp only [Dirs.setFile, Function.update_self] at hz' ⊢
      exact hz hz'
    · simp only [Dirs.setFile, Function.update_of_ne he] at hz' ⊢
      exact h.closed f' hz'

end DAcc

/-! ### Operations -/

/-- The operation may call `log_write`. -/
def DirOp.logs : DirOp → Bool
  | iput _ | linkUp _ | linkDown _ | linkIn .. | unlinkIn .. | createIn .. | trunc _ | write _ => true
  | _ => false

/-- How an operation changes whether its process is between `begin_op` and `end_op`. -/
def DirOp.opMove (o : DirOp) (g g' : Multiset Hold) : Prop :=
  match o with
  | beginOp => g.count .op = 0 ∧ g'.count .op = 1
  | endOp => g.count .op = g'.count .op + 1
  | o => g'.count .op = g.count .op ∧ (o.logs = true → 0 < g.count .op)

variable {N : Nat} {G : DirCond} {k k' : DirK} {own : Fin NPROC → Multiset Hold} {p : Fin NPROC} {o : DirOp}
  {Q : o.Ans → Multiset Hold → Prop} {x : o.Ans} {a b g : Multiset Hold}

def links (own : Fin NPROC → Multiset Hold) : Links := fun i => heldBy own (.link i)

/-- After an operation of `p` that leaves the slots alone. -/
def Stepped (N : Nat) (G : DirCond) (k k' : DirK) (own : Fin NPROC → Multiset Hold) (p : Fin NPROC) (o : DirOp)
    (Q : Multiset Hold → Prop) : Prop :=
  ∃ g, Q g ∧ k'.slot = k.slot ∧ (∀ q, g.count (.slot q) = (own p).count (.slot q)) ∧ DAcc k' (heldBy (update own p g)) ∧
    Changes N G (k.d, links own) (k'.d, links (update own p g)) ∧ o.opMove (own p) g

/-- `p` gives up `a` and takes `b`. -/
theorem Stepped.move (hg : own p = a + g) (hQ : Q x (b + g)) (hs : k'.slot = k.slot) (hq : ∀ q, b.count (.slot q) = a.count (.slot q))
    (hacc : ∀ H', (∀ r, H' r + a.count r = heldBy own r + b.count r) → DAcc k' H')
    (hch : ∀ L' : Links, (∀ i, L' i + a.count (.link i) = links own i + b.count (.link i)) →
      Changes N G (k.d, links own) (k'.d, L'))
    (hop : o.opMove (a + g) (b + g)) : Stepped N G k k' own p o (Q x) := by
  refine ⟨b + g, hQ, hs, fun q => ?_, hacc _ (heldBy_update hg), hch _ fun i => heldBy_update hg _, hg ▸ hop⟩
  rw [hg, Multiset.count_add, Multiset.count_add, hq]

/-- No counted link is involved. -/
theorem Stepped.plain (hg : own p = a + g) (hQ : Q x (b + g)) (hs : k'.slot = k.slot) (hq : ∀ q, b.count (.slot q) = a.count (.slot q))
    (hl : ∀ i, b.count (.link i) = a.count (.link i))
    (hacc : ∀ H', (∀ r, H' r + a.count r = heldBy own r + b.count r) → DAcc k' H')
    (hch : ∀ L, Changes N G (k.d, L) (k'.d, L)) (hop : o.opMove (a + g) (b + g)) : Stepped N G k k' own p o (Q x) := by
  refine Stepped.move hg hQ hs hq hacc (fun L' hL => ?_) hop
  obtain rfl : L' = links own := by
    funext i
    have h1 := hL i
    have h2 := hl i
    omega
  exact hch _

/-- Nothing is taken or given up. -/
theorem Stepped.keep (hQ : Q x (own p)) (hs : k'.slot = k.slot) (hacc : DAcc k (heldBy own)) (hfile : k'.d.file = k.d.file)
    (href : k'.d.ref = k.d.ref) (hconts : k'.conts = k.conts) (hch : ∀ L, Changes N G (k.d, L) (k'.d, L))
    (hop : o.opMove (own p) (own p)) : Stepped N G k k' own p o (Q x) := by
  have hz : own p = 0 + own p := (zero_add _).symm
  refine Stepped.plain hz (by rwa [zero_add]) hs (fun _ => rfl) (fun _ => rfl) (fun H' hH => ?_) hch (by rwa [zero_add])
  have hH : ∀ r, H' r = heldBy own r := fun r => by simpa using hH r
  refine hacc.keep hfile (fun f => hH _) (fun f => hH _) fun i => ?_
  rw [href, hconts, hH]

/-- A reference to `i` is taken. -/
theorem Stepped.take {i : Inum} (hQ : Q x ({.ref i} + own p)) (hs : k'.slot = k.slot) (hacc : DAcc k (heldBy own))
    (hfile : k'.d.file = k.d.file) (href : k'.d.ref = update k.d.ref i (k.d.ref i + 1)) (hconts : k'.conts = k.conts)
    (hch : ∀ L, Changes N G (k.d, L) (k'.d, L)) (hop : o.opMove (own p) ({.ref i} + own p)) : Stepped N G k k' own p o (Q x) := by
  have hz : own p = 0 + own p := (zero_add _).symm
  refine Stepped.plain hz hQ hs (fun q => by simp) (fun j => by simp) (fun H' hH => ?_) hch (by rwa [zero_add])
  refine hacc.keep hfile (fun f => by simpa using hH (.file f)) (fun f => by simpa using hH (.fresh f)) fun j => ?_
  have hj := hH (.ref j)
  rw [href, hconts]
  by_cases hij : j = i
  · subst hij
    simp only [Multiset.count_zero, Multiset.count_singleton_self] at hj
    rw [Function.update_self]
    omega
  · simp only [Multiset.count_zero, Multiset.count_singleton, Hold.ref.injEq, if_neg hij] at hj
    rw [Function.update_of_ne hij]
    omega

/-- A counted link is given up. -/
theorem Stepped.drop {i : Inum} (hg : own p = {.link i} + g) (hQ : Q x g) (hs : k'.slot = k.slot) (hacc : DAcc k (heldBy own))
    (hfile : k'.d.file = k.d.file) (href : k'.d.ref = k.d.ref) (hconts : k'.conts = k.conts)
    (hch : 0 < links own i → Changes N G (k.d, links own) (k'.d, update (links own) i (links own i - 1)))
    (hop : o.opMove ({.link i} + g) g) : Stepped N G k k' own p o (Q x) := by
  refine Stepped.move (b := 0) hg (by rwa [zero_add]) hs (fun q => by simp) (fun H' hH => ?_) (fun L' hL => ?_) (by rwa [zero_add])
  · refine hacc.keep hfile (fun f => by simpa using hH (.file f)) (fun f => by simpa using hH (.fresh f)) fun j => ?_
    rw [href, hconts]
    simpa using (hH (.ref j)).symm
  · obtain rfl : L' = update (links own) i (links own i - 1) := by
      funext j
      have hj := hL j
      by_cases hij : j = i
      · subst hij
        rw [Function.update_self]
        simp only [Multiset.count_singleton_self, Multiset.count_zero] at hj
        omega
      · rw [Function.update_of_ne hij]
        simpa [Multiset.count_singleton, hij] using hj
    exact hch (heldBy_pos (p := p) (by rw [hg]; exact SysFile.mem_left _ _))

theorem lift_ok {α : Type} {m : DirM α} {a : α} (h : k.lift m = .ok (a, k')) {Q : α → Dirs → Prop} {E : String → Dirs → Prop}
    (hw : wp m Q E k.d) : ∃ d, Q a d ∧ k' = { k with d } := by
  unfold DirK.lift at h
  unfold wp at hw
  cases hm : m k.d with
  | ok a' d' =>
    rw [hm] at h hw
    cases h
    exact ⟨d', hw, rfl⟩
  | error msg d' =>
    rw [hm] at h
    cases h

/-- The operation changes a slot of the process table. -/
def DirOp.slots : DirOp → Bool
  | slotalloc | slotfree _ | publish .. => true
  | _ => false

theorem count_ref_op {i : Inum} (g : Multiset Hold) : ({.ref i} + g).count .op = g.count .op := by simp

/-- Each operation that leaves the slots alone, with what it needs, keeps the counts. -/
theorem exec_stepped {env : DirEnv} (hacc : DAcc k (heldBy own)) (hr : dirRule o Q (own p)) (hG : G k.d.node o) (ho : o.slots = false)
    (he : k.exec N env o = .ok (x, k')) : Stepped N G k k' own p o (Q x) := by
  cases o with
  | beginOp =>
    cases he
    have hz : own p = 0 + own p := (zero_add _).symm
    refine Stepped.plain hz hr.2 rfl (fun q => by simp) (fun i => by simp) (fun H' hH => ?_) (fun L => .refl) ?_
    · exact hacc.keep rfl (fun f => by simpa using hH (.file f)) (fun f => by simpa using hH (.fresh f))
        fun i => by simpa using (hH (.ref i)).symm
    · have := Multiset.count_eq_zero.2 hr.1
      exact ⟨by simpa using this, by simpa using this⟩
  | endOp =>
    obtain ⟨g, hg, hQ⟩ := hr
    have hd : k'.d = k.d ∧ k'.slot = k.slot ∧ k'.conts = k.conts := by
      cases he
      dsimp only
      split <;> exact ⟨rfl, rfl, rfl⟩
    refine Stepped.plain (b := 0) hg (by rwa [zero_add]) hd.2.1 (fun q => by simp) (fun i => by simp) (fun H' hH => ?_)
      (fun L => hd.1 ▸ .refl) ?_
    · refine hacc.keep (by rw [hd.1]) (fun f => by simpa using hH (.file f)) (fun f => by simpa using hH (.fresh f)) fun i => ?_
      rw [hd.1, hd.2.2]
      simpa using (hH (.ref i)).symm
    · change Multiset.count _ _ = _
      simp [add_comm]
  | iget i =>
    obtain ⟨d', rfl, rfl⟩ := lift_ok he (Dir.iget_spec i)
    exact Stepped.take hr.2 rfl hacc (Dirs.got_file ..) (Dirs.got_ref ..) rfl (fun L => .single (.got (.inl hr.1)))
      ⟨count_ref_op _, by intros; contradiction⟩
  | idup i =>
    obtain ⟨d', rfl, rfl⟩ := lift_ok (k := k) (m := Dir.idup i) he (Dir.idup_spec i)
    refine Stepped.take hr.2 rfl hacc rfl rfl rfl (fun L => .single (.dup ?_)) ⟨count_ref_op _, by intros; contradiction⟩
    exact hacc.ref_pos (heldBy_pos hr.1)
  | iput i =>
    obtain ⟨d', rfl, rfl⟩ := lift_ok (k := k) (m := Dir.iput i) he (Dir.iput_put i)
    obtain ⟨g, hg, hop, hQ⟩ := hr
    refine Stepped.plain (b := 0) hg (by rwa [zero_add]) rfl (fun q => by simp) (fun j => by simp) (fun H' hH => ?_)
      (fun L => .single (.put i)) ?_
    · refine hacc.keep (Dirs.put_file ..) (fun f => by simpa using hH (.file f)) (fun f => by simpa using hH (.fresh f)) fun j => ?_
      have hj := hH (.ref j)
      have hpos : 0 < k.d.ref i := hacc.ref_pos (heldBy_pos (p := p) (by rw [hg]; exact SysFile.mem_left _ _))
      simp only [Dirs.put_ref]
      by_cases hij : j = i
      · subst hij
        simp only [Multiset.count_zero, Multiset.count_singleton_self] at hj
        rw [Function.update_self]
        omega
      · simp only [Multiset.count_zero, Multiset.count_singleton, Hold.ref.injEq, if_neg hij] at hj
        rw [Function.update_of_ne hij]
        omega
    · refine ⟨?_, fun _ => ?_⟩
      · rw [count_ref_op, zero_add]
      · rw [count_ref_op]
        exact Multiset.count_pos.2 hop
  | lookup dp name =>
    obtain ⟨d', ⟨hl, hd⟩, rfl⟩ := lift_ok he (Dir.lookup_spec dp name)
    cases x with
    | notdir =>
      subst hd
      exact Stepped.keep hr.2.1 rfl hacc rfl rfl rfl (fun L => .single (.lock hl)) ⟨rfl, by intros; contradiction⟩
    | missing =>
      subst hd
      exact Stepped.keep hr.2.2.1 rfl hacc rfl rfl rfl (fun L => .single (.lock hl)) ⟨rfl, by intros; contradiction⟩
    | found i =>
      obtain ⟨rfl, hty, hde⟩ := hd
      refine Stepped.take (hr.2.2.2 i) rfl hacc (Dirs.got_file ..) (Dirs.got_ref ..) rfl (fun L => ?_)
        ⟨count_ref_op _, by intros; contradiction⟩
      exact (Changes.one (.lock hl)).tail (.got (.inr ⟨dp, hty, hde⟩))
  | stat i =>
    obtain ⟨d', ⟨hl, rfl, -⟩, rfl⟩ := lift_ok he (Dir.stat_spec i)
    exact Stepped.keep (hr.2 x) rfl hacc rfl rfl rfl (fun L => .single (.lock hl)) ⟨rfl, by intros; contradiction⟩
  | linkUp i =>
    obtain ⟨d', ⟨hl, hd⟩, rfl⟩ := lift_ok he (Dir.linkUp_spec i)
    have hop := Multiset.count_pos.2 hr.1
    cases x with
    | false =>
      obtain ⟨-, rfl⟩ := hd
      exact Stepped.keep hr.2.2.1 rfl hacc rfl rfl rfl (fun L => .single (.lock hl)) ⟨rfl, fun _ => hop⟩
    | true =>
      obtain ⟨hty, rfl⟩ := hd
      have hz : own p = 0 + own p := (zero_add _).symm
      refine Stepped.move hz hr.2.2.2 rfl (fun q => by simp) (fun H' hH => ?_) (fun L' hL => ?_) ⟨by simp, fun _ => by simpa using hop⟩
      · exact hacc.keep rfl (fun f => by simpa using hH (.file f)) (fun f => by simpa using hH (.fresh f))
          fun j => by simpa using (hH (.ref j)).symm
      · obtain rfl : L' = update (links own) i (links own i + 1) := by
          funext j
          have hj := hL j
          by_cases hij : j = i
          · subst hij
            simpa using hj
          · rw [Function.update_of_ne hij]
            simpa [Multiset.count_singleton, hij] using hj
        exact .single (.up hG hl hty)
  | linkDown i =>
    obtain ⟨d', ⟨hl, rfl⟩, rfl⟩ := lift_ok he (Dir.linkDown_spec i)
    obtain ⟨-, g, hg, hop, hQ⟩ := hr
    have hop := Multiset.count_pos.2 hop
    exact Stepped.drop hg hQ rfl hacc rfl rfl rfl (fun hpos => .single (.down hl hpos)) ⟨by simp, fun _ => by simpa using hop⟩
  | linkIn dp name i =>
    obtain ⟨d', ⟨hl, hty, hd⟩, rfl⟩ := lift_ok he (Dir.linkIn_spec dp name i env.grow.2)
    obtain ⟨-, g, hg, hop, hQ⟩ := hr
    have hop := Multiset.count_pos.2 hop
    cases x with
    | false =>
      refine Stepped.keep hQ.1 rfl hacc ?_ ?_ rfl (fun L => ?_) ⟨rfl, fun _ => ?_⟩
      · exact hd.file
      · exact hd.ref
      · exact (Changes.one (.lock hl)).tail (.touch hd)
      · rw [hg]
        simpa using hop
    | true =>
      obtain ⟨hn, ents, ha, rfl⟩ := hd
      exact Stepped.drop hg hQ.2 rfl hacc rfl rfl rfl (fun hpos => .single (.link hG hl hty hpos hn ha))
        ⟨by simp, fun _ => by simpa using hop⟩
  | unlinkIn dp name =>
    obtain ⟨d', ⟨hl, hd⟩, rfl⟩ := lift_ok he (Dir.unlinkIn_spec dp name)
    obtain ⟨hop, -, hbad, hQ⟩ := hr
    have hop := Multiset.count_pos.2 hop
    cases x with
    | bad =>
      subst hd
      exact Stepped.keep hbad rfl hacc rfl rfl rfl (fun L => .single (.lock hl)) ⟨rfl, fun _ => hop⟩
    | busy i =>
      obtain ⟨rfl, hty, hde, hli⟩ := hd
      refine Stepped.take (hQ i).1 rfl hacc (Dirs.got_file ..) (Dirs.got_ref ..) rfl (fun L => ?_) ⟨count_ref_op _, fun _ => hop⟩
      exact ((Changes.one (.lock hl)).tail (.got (.inr ⟨dp, hty, hde⟩))).tail (.lock hli)
    | done i =>
      obtain ⟨hty, h1, h2, hnl, hemp, hi, hli, l₁, l₂, hents, rfl⟩ := hd
      refine Stepped.take (hQ i).2 rfl hacc (Dir.unlinked_file ..) (Dir.unlinked_ref ..) rfl (fun L => ?_) ⟨count_ref_op _, fun _ => hop⟩
      exact .single (.unlink hG hl hty h1 h2 hnl hemp hi hli hents)
  | createIn dp name type major minor =>
    obtain ⟨hop, -, hfree, hfail, hQ⟩ := hr
    have hop := Multiset.count_pos.2 hop
    obtain ⟨d', ⟨hl, hty, hd⟩, rfl⟩ := lift_ok he (Dir.createIn_spec dp name hfree major minor env.grow)
    cases x with
    | old i =>
      obtain ⟨rfl, hde⟩ := hd
      refine Stepped.take (hQ i).1 rfl hacc (Dirs.got_file ..) (Dirs.got_ref ..) rfl (fun L => ?_) ⟨count_ref_op _, fun _ => hop⟩
      exact (Changes.one (.lock hl)).tail (.got (.inr ⟨dp, hty, hde⟩))
    | failed =>
      obtain rfl | ⟨i, x, hf, hi, hN, hx, rfl⟩ := hd
      · exact Stepped.keep hfail rfl hacc rfl rfl rfl (fun L => .single (.lock hl)) ⟨rfl, fun _ => hop⟩
      · refine Stepped.keep hfail rfl hacc (Dirs.put_file ..) ?_ rfl (fun L => ?_) ⟨rfl, fun _ => hop⟩
        · simp [Dir.born]
        · exact .single (.scrap hG hl hty hfree hf hi hN hx)
    | made i =>
      obtain ⟨hf, hi, hN, hn, ents, ha, rfl⟩ := hd
      refine Stepped.take (hQ i).2 rfl hacc (Dir.made_file ..) (Dir.made_ref ..) rfl (fun L => ?_) ⟨count_ref_op _, fun _ => hop⟩
      exact .single (.made hG hl hty hfree hf hi hN hn ha)
  | trunc f =>
    obtain ⟨hop, -, hQ⟩ := hr
    obtain ⟨d', ⟨i, -, hl, rfl⟩, rfl⟩ := lift_ok he (Dir.fileLock_spec f _)
    exact Stepped.keep hQ rfl hacc rfl rfl rfl (fun L => .single (.data hl _)) ⟨rfl, fun _ => Multiset.count_pos.2 hop⟩
  | readFile f =>
    obtain ⟨d', ⟨i, -, hl, rfl⟩, rfl⟩ := lift_ok he (Dir.fileLock_spec f _)
    exact Stepped.keep hr.2 rfl hacc rfl rfl rfl (fun L => .single (.data hl _)) ⟨rfl, by intros; contradiction⟩
  | write f =>
    obtain ⟨hop, -, hQ⟩ := hr
    obtain ⟨k1, hk1, rfl⟩ : ∃ k1, k.lift (Dir.fileLock f fun _ => env.data) = .ok ((), k1) ∧ k' = k1 := by
      rw [DirK.exec_write] at he
      cases hk : k.lift (Dir.fileLock f fun _ => env.data) with
      | ok r =>
        rw [hk] at he
        cases he
        exact ⟨_, rfl, rfl⟩
      | error msg =>
        rw [hk] at he
        cases he
    obtain ⟨d', ⟨i, -, hl, rfl⟩, rfl⟩ := lift_ok hk1 (Dir.fileLock_spec f _)
    exact Stepped.keep (hQ x) rfl hacc rfl rfl rfl (fun L => .single (.data hl _)) ⟨rfl, fun _ => Multiset.count_pos.2 hop⟩
  | filealloc =>
    obtain ⟨d', hd, rfl⟩ := lift_ok he (Dir.filealloc_spec (E := fun _ _ => True))
    cases x with
    | none =>
      subst hd
      exact Stepped.keep hr.2 rfl hacc rfl rfl rfl (fun L => .refl) ⟨rfl, by intros; contradiction⟩
    | some f =>
      obtain ⟨hz, rfl⟩ := hd
      have hz' := hacc.files f
      have hown : own p = 0 + own p := (zero_add _).symm
      refine Stepped.plain hown (hr.1 f) rfl (fun q => by simp) (fun j => by simp) (fun H' hH => ?_)
        (fun L => .single (.same rfl rfl rfl)) ⟨by simp, by intros; contradiction⟩
      have h1 := hH (.file f)
      have h2 := hH (.fresh f)
      simp only [Multiset.count_zero, Multiset.count_singleton, reduceCtorEq, if_false, if_true] at h1 h2
      refine hacc.setFile rfl (fun i => ?_) (fun f' hne => ⟨by simpa using hH (.file f'), ?_⟩) (by dsimp only; omega)
        (fun _ => ⟨rfl, hacc.closed f hz⟩) (by simp)
      · simpa using hH (.ref i)
      · simpa [Multiset.count_singleton, hne] using hH (.fresh f')
  | filedup f =>
    obtain ⟨d', ⟨hpos, rfl⟩, rfl⟩ := lift_ok he (Dir.filedup_spec f)
    have hown : own p = 0 + own p := (zero_add _).symm
    have hheld : 0 < heldBy own (.file f) := heldBy_pos hr.1
    refine Stepped.plain hown hr.2 rfl (fun q => by simp) (fun j => by simp) (fun H' hH => ?_)
      (fun L => .single (.same rfl rfl rfl)) ⟨by simp, fun h => by cases h⟩
    have h0 := hacc.files f
    have h1 := hH (.file f)
    have h2 := hH (.fresh f)
    simp only [Multiset.count_zero, Multiset.count_singleton, reduceCtorEq, if_false, if_true] at h1 h2
    refine hacc.setFile rfl (fun i => ?_) (fun f' hne => ⟨?_, by simpa using hH (.fresh f')⟩) (by dsimp only; omega)
      (fun hp => ?_) (by simp)
    · simpa using hH (.ref i)
    · simpa [Multiset.count_singleton, hne] using hH (.file f')
    · have := (hacc.fresh f (by omega)).1
      omega
  | fileput f =>
    obtain ⟨d', hd, rfl⟩ := lift_ok he (Dir.fileput_spec f)
    obtain ⟨g, ⟨hg, hQ⟩ | ⟨hg, hQ, hQ'⟩⟩ := hr
    · have hheld : 0 < heldBy own (.fresh f) := heldBy_pos (p := p) (by rw [hg]; exact SysFile.mem_left _ _)
      obtain ⟨hone, hip⟩ := hacc.fresh f hheld
      obtain ⟨hlt, -⟩ | ⟨-, rfl, rfl⟩ := hd
      · omega
      rw [hip]
      refine Stepped.plain (b := 0) hg (by rwa [zero_add]) rfl (fun q => by simp) (fun j => by simp) (fun H' hH => ?_)
        (fun L => .single (.same rfl rfl rfl)) ⟨by simp, fun h => by cases h⟩
      have h0 := hacc.files f
      have h1 := hH (.file f)
      have h2 := hH (.fresh f)
      simp only [Multiset.count_zero, Multiset.count_singleton, reduceCtorEq, if_false, if_true] at h1 h2
      refine hacc.setFile rfl (fun i => ?_) (fun f' hne => ⟨by simpa using hH (.file f'), ?_⟩) (by dsimp only; omega)
        (fun hp => by omega) fun _ => rfl
      · rw [hip]
        simpa using hH (.ref i)
      · simpa [Multiset.count_singleton, hne] using hH (.fresh f')
    · have hheld : 0 < heldBy own (.file f) := heldBy_pos (p := p) (by rw [hg]; exact SysFile.mem_left _ _)
      have h0 := hacc.files f
      have hfresh : heldBy own (.fresh f) = 0 := by
        by_contra hne
        have := (hacc.fresh f (by omega)).1
        omega
      obtain ⟨hlt, rfl, rfl⟩ | ⟨hone, rfl, rfl⟩ := hd
      · refine Stepped.plain (b := 0) hg (by rwa [zero_add]) rfl (fun q => by simp) (fun j => by simp) (fun H' hH => ?_)
          (fun L => .single (.same rfl rfl rfl)) ⟨by simp, fun h => by cases h⟩
        have h1 := hH (.file f)
        have h2 := hH (.fresh f)
        simp only [Multiset.count_zero, Multiset.count_singleton, reduceCtorEq, if_false, if_true] at h1 h2
        refine hacc.setFile rfl (fun i => ?_) (fun f' hne => ⟨?_, by simpa using hH (.fresh f')⟩) (by dsimp only; omega)
          (fun hp => by omega) (fun hz => by dsimp only at hz; omega)
        · simpa using hH (.ref i)
        · simpa [Multiset.count_singleton, hne] using hH (.file f')
      · have hQ2 : Q (k.d.file f).ip (contRes (k.d.file f).ip + g) := by
          cases hip : (k.d.file f).ip with
          | none => exact (zero_add g).symm ▸ hQ
          | some i => exact hQ' i
        have hcount : ∀ r, (∀ i, r ≠ .ref i) → (contRes (k.d.file f).ip).count r = 0 := by
          intro r hr
          cases (k.d.file f).ip with
          | none => rfl
          | some i => exact Multiset.count_eq_zero.2 fun hm => hr i (Multiset.mem_singleton.1 hm)
        refine Stepped.plain hg hQ2 rfl (fun q => by simp [hcount]) (fun j => by simp [hcount]) (fun H' hH => ?_)
          (fun L => .single (.same rfl rfl rfl)) ⟨by simp [hcount], fun h => by cases h⟩
        have h1 := hH (.file f)
        have h2 := hH (.fresh f)
        rw [hcount (.file f) (by simp), Multiset.count_singleton_self] at h1
        rw [hcount (.fresh f) (by simp), Multiset.count_singleton, if_neg (by simp)] at h2
        refine hacc.setFile rfl (fun i => ?_) (fun f' hne => ⟨?_, ?_⟩) (by dsimp only; omega) (fun hp => by omega) fun _ => rfl
        · have h3 := hH (.ref i)
          have h4 : (contRes (k.d.file f).ip).count (.ref i) = if (k.d.file f).ip = some i then 1 else 0 := by
            cases (k.d.file f).ip with
            | none => rfl
            | some j => simp [contRes, Multiset.count_singleton, eq_comm]
          rw [h4] at h3
          simpa using h3
        · have h3 := hH (.file f')
          rw [hcount (.file f') (by simp)] at h3
          simpa [Multiset.count_singleton, hne] using h3
        · have h3 := hH (.fresh f')
          rw [hcount (.fresh f') (by simp)] at h3
          simpa using h3
  | fileset f i dev rd wr =>
    obtain ⟨g, hg, hQ⟩ := hr
    cases he
    have hheld : 0 < heldBy own (.fresh f) := heldBy_pos (p := p) (by rw [hg]; exact SysFile.mem_left _ _)
    obtain ⟨hone, hip⟩ := hacc.fresh f hheld
    have hg' : own p = ({.fresh f} + {.ref i}) + g := by rw [hg, add_assoc]
    refine Stepped.plain hg' hQ rfl (fun q => by simp) (fun j => by simp) (fun H' hH => ?_)
      (fun L => .single (.same rfl rfl rfl)) ⟨by simp, fun h => by cases h⟩
    have h0 := hacc.files f
    have h1 := hH (.file f)
    have h2 := hH (.fresh f)
    simp only [Multiset.count_add, Multiset.count_singleton, reduceCtorEq, if_false, if_true] at h1 h2
    refine hacc.setFile rfl (fun j => ?_) (fun f' hne => ⟨?_, ?_⟩) (by dsimp only; omega) (fun hp => by omega)
      (fun hz => by dsimp only at hz; omega)
    · rw [hip]
      have h3 := hH (.ref j)
      simp only [Multiset.count_add, Multiset.count_singleton, reduceCtorEq, if_false, Hold.ref.injEq] at h3
      simp only [Option.some.injEq, reduceCtorEq, if_false, eq_comm (a := i)]
      omega
    · simpa [Multiset.count_singleton, hne] using hH (.file f')
    · simpa [Multiset.count_singleton, hne] using hH (.fresh f')
  | getFile f =>
    cases he
    exact Stepped.keep (hr.2 _) rfl hacc rfl rfl rfl (fun L => .refl) ⟨rfl, by intros; contradiction⟩
  | slotalloc => cases ho
  | slotfree q => cases ho
  | publish q l => cases ho

/-! ### Runs -/

/-- What a process holds outside a call. -/
def DirSlot.res (x : DirSlot) : Multiset Hold :=
  match x.st with
  | .live => x.loc.res
  | _ => 0

namespace DirSys

/-- The operation that `q` makes in the step `e`. -/
def opOf (s : DirSys) (e : DirEv) (q : Fin NPROC) : Option DirOp :=
  match e with
  | .next p _ =>
    if p = q then
      match s.th p with
      | some (.call o _) => some o
      | _ => none
    else none
  | _ => none

/-- Each operation of a step meets the condition. -/
def Meets (G : DirCond) (s : DirSys) (e : DirEv) : Prop := ∀ q o, s.opOf e q = some o → G s.k.d.node o

/-- A condition of each step that can be computed. -/
def check (g : (Inum → Node) → DirOp → Bool) (s : DirSys) (e : DirEv) : Bool :=
  match e with
  | .next p _ =>
    match s.th p with
    | some (.call o _) => g s.k.d.node o
    | _ => true
  | _ => true

theorem meets_of_check {G : DirCond} {g : (Inum → Node) → DirOp → Bool} (hg : ∀ nd o, g nd o = true → G nd o) (s : DirSys) (e : DirEv)
    (h : check g s e = true) : s.Meets G e := by
  intro q o ho
  unfold opOf at ho
  split at ho
  · split at ho
    · split at ho
      · rename_i hth
        simp only [Option.some.injEq] at ho
        subst ho
        simp only [check, hth] at h
        exact hg _ _ h
      · cases ho
    · cases ho
  · cases ho

/-- The processes hold `own`. -/
structure InvAt (s : DirSys) (own : Fin NPROC → Multiset Hold) : Prop where
  acc : DAcc s.k (heldBy own)
  slot : ∀ q, heldBy own (.slot q) = if (s.k.slot q).st = .used then 1 else 0
  run : ∀ p c, s.th p = some c → (s.k.slot p).st = .incall ∧ SysFile.wp c SysFile.Post (own p)
  idle : ∀ p, s.th p = none → (s.k.slot p).st ≠ .incall ∧ own p = (s.k.slot p).res

/-- After a step. -/
structure StepTo (N : Nat) (G : DirCond) (s : DirSys) (e : DirEv) (t : DirSys) (own own' : Fin NPROC → Multiset Hold) : Prop where
  inv : t.InvAt own'
  change : Changes N G (s.k.d, links own) (t.k.d, links own')
  op : ∀ q, match s.opOf e q with
    | some o => o.opMove (own q) (own' q)
    | none => (own' q).count .op = (own q).count .op

variable {N : Nat} {G : DirCond} {s t : DirSys} {own own' : Fin NPROC → Multiset Hold} {p : Fin NPROC}

theorem res_count_op (x : DirSlot) : x.res.count .op = 0 := by
  unfold DirSlot.res
  split
  · exact Multiset.count_eq_zero.2 (Local.op_not_mem _)
  · rfl

theorem res_count_slot (x : DirSlot) (q : Fin NPROC) : x.res.count (.slot q) = 0 := by
  unfold DirSlot.res
  split
  · refine Multiset.count_eq_zero.2 fun h => ?_
    obtain h | ⟨f, h⟩ := Local.mem_res h <;> cases h
  · rfl

theorem res_count_link (x : DirSlot) (i : Inum) : x.res.count (.link i) = 0 := by
  unfold DirSlot.res
  split
  · refine Multiset.count_eq_zero.2 fun h => ?_
    obtain h | ⟨f, h⟩ := Local.mem_res h <;> cases h
  · rfl

theorem contRes_count {c : Option Inum} {r : Hold} (h : ∀ i, r ≠ .ref i) : (contRes c).count r = 0 := by
  cases c with
  | none => rfl
  | some i => exact Multiset.count_eq_zero.2 fun hm => h i (Multiset.mem_singleton.1 hm)

theorem contRes_count_ref (c : Option Inum) (i : Inum) : (contRes c).count (.ref i) = c.toList.count i := by
  cases c with
  | none => rfl
  | some j =>
    by_cases h : i = j
    · subst h
      simp [contRes]
    · simp [contRes, h, Ne.symm h]

/-- A process starts a call. -/
theorem InvAt.call (h : s.InvAt own) {c : DirCall} (hl : (s.k.slot p).st = .live) (hc : c.rootdir.all (· ∈ s.k.conts)) :
    ∃ own', StepTo N G s (.call p c)
      ⟨{ s.k with conts := c.rootdir.elim s.k.conts s.k.conts.erase }.setSlot p { s.k.slot p with st := .incall },
        update s.th p (some (c.code (p = s.k.initproc) (s.k.slot p).loc))⟩ own own' := by
  have hth : s.th p = none := by
    cases ht : s.th p with
    | none => rfl
    | some c =>
      have := (h.run p c ht).1
      rw [hl] at this
      cases this
  have hown : own p = 0 + (s.k.slot p).loc.res := by
    rw [(h.idle p hth).2, DirSlot.res, hl, zero_add]
  have hm := heldBy_update (b := contRes c.rootdir) hown
  have hm0 : ∀ r, (∀ i, r ≠ .ref i) → heldBy (update own p (contRes c.rootdir + (s.k.slot p).loc.res)) r = heldBy own r := by
    intro r hr
    have := hm r
    rw [contRes_count hr] at this
    simpa using this
  refine ⟨update own p (contRes c.rootdir + (s.k.slot p).loc.res), ⟨?_, fun q => ?_, fun q c' hc' => ?_, fun q hq => ?_⟩, ?_, fun q => ?_⟩
  · refine h.acc.keep rfl (fun f => hm0 _ (by simp)) (fun f => hm0 _ (by simp)) fun i => ?_
    have hi := hm (.ref i)
    rw [contRes_count_ref, Multiset.count_zero] at hi
    change s.k.d.ref i + heldBy own (.ref i) + s.k.conts.count i =
      s.k.d.ref i + heldBy (update own p (contRes c.rootdir + (s.k.slot p).loc.res)) (.ref i) +
        (c.rootdir.elim s.k.conts s.k.conts.erase).count i
    cases hr : c.rootdir with
    | none =>
      rw [hr] at hi
      simp only [Option.elim_none]
      simp only [Option.toList_none, List.count_nil] at hi
      omega
    | some r =>
      rw [hr] at hi hc
      have hmem : r ∈ s.k.conts := by simpa using hc
      simp only [Option.elim_some]
      simp only [Option.toList_some] at hi
      have he : (s.k.conts.erase r).count i = s.k.conts.count i - if (r == i) = true then 1 else 0 := List.count_erase
      by_cases hri : i = r
      · subst hri
        have := List.count_pos_iff.2 hmem
        simp only [List.count_singleton_self, BEq.rfl, if_true] at hi he
        omega
      · have hne : (r == i) = false := by simpa using fun h => hri h.symm
        simp only [List.count_singleton, hne] at hi he
        simp at hi he
        omega
  · rw [hm0 _ (by simp), h.slot q]
    by_cases hqp : q = p
    · subst hqp
      simp [DirK.setSlot, hl]
    · simp [DirK.setSlot, Function.update_of_ne hqp]
  · by_cases hqp : q = p
    · subst hqp
      simp only [Function.update_self, Option.some.injEq] at hc'
      subst hc'
      rw [Function.update_self]
      exact ⟨by simp [DirK.setSlot], DirCall.code_wp ..⟩
    · simp only [Function.update_of_ne hqp] at hc' ⊢
      simpa [DirK.setSlot, Function.update_of_ne hqp] using h.run q c' hc'
  · have hqp : q ≠ p := by
      rintro rfl
      simp at hq
    simp only [Function.update_of_ne hqp] at hq ⊢
    simpa [DirK.setSlot, Function.update_of_ne hqp] using h.idle q hq
  · have hL : links (update own p (contRes c.rootdir + (s.k.slot p).loc.res)) = links own := funext fun i => hm0 _ (by simp)
    rw [hL]
    exact .refl
  · change Multiset.count _ _ = _
    by_cases hqp : q = p
    · subst hqp
      rw [Function.update_self, hown, Multiset.count_add, Multiset.count_add, contRes_count (by simp), Multiset.count_zero]
    · rw [Function.update_of_ne hqp]

/-- A process returns from a call. -/
theorem InvAt.done (h : s.InvAt own) {r : DirOut} (hth : s.th p = some (.ret r)) : ∃ own', StepTo N G s (.done p) (s.done p r) own own' := by
  obtain ⟨hin, hpost⟩ := h.run p _ hth
  have hpost : own p = (if r.exited then 0 else r.loc.res) + contRes r.cont := hpost
  let x : DirSlot := if r.exited then {} else ⟨.live, r.loc⟩
  have hres : x.res = if r.exited then 0 else r.loc.res := by
    change DirSlot.res (if r.exited then {} else ⟨.live, r.loc⟩) = _
    split <;> rfl
  have hx : x.st ≠ .incall ∧ x.st ≠ .used := by
    change DirSlot.st (if r.exited then {} else ⟨.live, r.loc⟩) ≠ _ ∧ DirSlot.st (if r.exited then {} else ⟨.live, r.loc⟩) ≠ _
    split <;> exact ⟨nofun, nofun⟩
  have hown : own p = contRes r.cont + x.res := by rw [hpost, hres, add_comm]
  have hm := heldBy_update (b := 0) hown
  rw [zero_add] at hm
  have hm0 : ∀ u, (∀ i, u ≠ .ref i) → heldBy (update own p x.res) u = heldBy own u := by
    intro u hu
    have := hm u
    rw [contRes_count hu] at this
    simpa using this
  refine ⟨update own p x.res, ⟨?_, fun q => ?_, fun q c hc => ?_, fun q hq => ?_⟩, ?_, fun q => ?_⟩
  · refine h.acc.keep rfl (fun f => hm0 _ (by simp)) (fun f => hm0 _ (by simp)) fun i => ?_
    have hi := hm (.ref i)
    rw [contRes_count_ref, Multiset.count_zero] at hi
    change s.k.d.ref i + heldBy own (.ref i) + s.k.conts.count i =
      s.k.d.ref i + heldBy (update own p x.res) (.ref i) + (r.cont.toList ++ s.k.conts).count i
    rw [List.count_append]
    omega
  · rw [hm0 _ (by simp), h.slot q]
    change (if (s.k.slot q).st = .used then 1 else 0) = if (update s.k.slot p x q).st = .used then 1 else 0
    by_cases hqp : q = p
    · subst hqp
      rw [Function.update_self, if_neg hx.2, hin]
      rfl
    · rw [Function.update_of_ne hqp]
  · have hqp : q ≠ p := by
      rintro rfl
      simp [DirSys.done] at hc
    simp only [DirSys.done, Function.update_of_ne hqp] at hc ⊢
    simpa [DirK.setSlot, Function.update_of_ne hqp] using h.run q c hc
  · change (update s.k.slot p x q).st ≠ .incall ∧ update own p x.res q = (update s.k.slot p x q).res
    by_cases hqp : q = p
    · subst hqp
      rw [Function.update_self, Function.update_self]
      exact ⟨hx.1, rfl⟩
    · simp only [DirSys.done, Function.update_of_ne hqp] at hq ⊢
      exact h.idle q hq
  · have hL : links (update own p x.res) = links own := funext fun i => hm0 _ (by simp)
    rw [hL]
    exact .refl
  · change Multiset.count _ _ = _
    by_cases hqp : q = p
    · subst hqp
      rw [Function.update_self, hown, Multiset.count_add, contRes_count (by simp), zero_add]
    · rw [Function.update_of_ne hqp]

section next

variable {o : DirOp} {f : o.Ans → DirCode DirOut} {x : o.Ans} {k' : DirK} {env : DirEnv} {g : Multiset Hold} {q : Fin NPROC} {y : DirSlot}

theorem opOf_next (hth : s.th p = some (.call o f)) (r : Fin NPROC) : s.opOf (.next p env) r = if p = r then some o else none := by
  unfold opOf
  simp only [hth]

/-- An operation of `p` changes the slot of `q`, which is not in a call. -/
theorem InvAt.setSlot (h : s.InvAt own) (hth : s.th p = some (.call o f)) (hwp : SysFile.wp (f x) SysFile.Post g)
    (hq : (s.k.slot q).st = .unused ∨ (s.k.slot q).st = .used) (hy : y.st ≠ .incall)
    (hg : ∀ r, (∀ q, r ≠ .slot q) → (g + y.res).count r = (own p).count r)
    (hs : ∀ r, g.count (.slot r) + (if (s.k.slot r).st = .used then 1 else 0) =
      (own p).count (.slot r) + if (update s.k.slot q y r).st = .used then 1 else 0)
    (hop : o.opMove (own p) g) : ∃ own', StepTo N G s (.next p env) ⟨s.k.setSlot q y, update s.th p (some (f x))⟩ own own' := by
  have hin := (h.run p _ hth).1
  have hqp : q ≠ p := by
    rintro rfl
    rw [hin] at hq
    obtain hq | hq := hq <;> cases hq
  have hthq : s.th q = none := by
    cases ht : s.th q with
    | none => rfl
    | some c =>
      have := (h.run q c ht).1
      rw [this] at hq
      obtain hq | hq := hq <;> cases hq
  have hownq : own q = 0 := by
    rw [(h.idle q hthq).2, DirSlot.res]
    obtain hq | hq := hq <;> rw [hq]
  have h1 := heldBy_update (b := g) (p := p) (add_zero (own p)).symm
  have h2 := @heldBy_update _ _ _ _ _ (update own p g) q 0 y.res 0 (by
    rw [Function.update_of_ne hqp, hownq, add_zero])
  rw [add_zero] at h1 h2
  have hm : ∀ r, heldBy (update (update own p g) q y.res) r + (own p).count r = heldBy own r + (g + y.res).count r := by
    intro r
    have h1 := h1 r
    have h2 := h2 r
    rw [Multiset.count_add]
    rw [Multiset.count_zero] at h2
    omega
  have hm0 : ∀ r, (∀ q, r ≠ .slot q) → heldBy (update (update own p g) q y.res) r = heldBy own r := by
    intro r hr
    have h1 := hm r
    have h2 := hg r hr
    omega
  refine ⟨update (update own p g) q y.res, ⟨?_, fun r => ?_, fun r c hc => ?_, fun r hr => ?_⟩, ?_, fun r => ?_⟩
  · refine h.acc.keep rfl (fun f => hm0 _ (by simp)) (fun f => hm0 _ (by simp)) fun i => ?_
    rw [hm0 _ (by simp)]
    rfl
  · have h1 := hm (.slot r)
    have h2 := hs r
    have h3 := h.slot r
    rw [Multiset.count_add, res_count_slot] at h1
    change _ = if (update s.k.slot q y r).st = .used then 1 else 0
    omega
  · by_cases hrp : r = p
    · subst hrp
      simp only [Function.update_self, Option.some.injEq] at hc
      subst hc
      simp only [DirK.setSlot, Function.update_of_ne hqp.symm, Function.update_self]
      exact ⟨hin, hwp⟩
    · simp only [Function.update_of_ne hrp] at hc
      have hrq : r ≠ q := by
        rintro rfl
        rw [hthq] at hc
        cases hc
      simpa [DirK.setSlot, Function.update_of_ne hrq, Function.update_of_ne hrp] using h.run r c hc
  · have hrp : r ≠ p := by
      rintro rfl
      simp at hr
    simp only [Function.update_of_ne hrp] at hr
    change (update s.k.slot q y r).st ≠ .incall ∧ _ = (update s.k.slot q y r).res
    by_cases hrq : r = q
    · subst hrq
      rw [Function.update_self, Function.update_self]
      exact ⟨hy, rfl⟩
    · simp only [Function.update_of_ne hrq, Function.update_of_ne hrp]
      exact h.idle r hr
  · have hL : links (update (update own p g) q y.res) = links own := funext fun i => hm0 _ (by simp)
    rw [hL]
    exact .refl
  · rw [opOf_next hth]
    by_cases hrp : p = r
    · subst hrp
      rw [if_pos rfl, Function.update_of_ne hqp.symm, Function.update_self]
      exact hop
    · rw [if_neg hrp]
      by_cases hrq : r = q
      · subst hrq
        simp only [Function.update_self, hownq, Multiset.count_zero]
        exact res_count_op y
      · simp only [Function.update_of_ne hrq, Function.update_of_ne (Ne.symm hrp)]

theorem InvAt.stepped (h : s.InvAt own) (hth : s.th p = some (.call o f))
    (hst : Stepped N G s.k k' own p o (SysFile.wp (f x) SysFile.Post)) :
    ∃ own', StepTo N G s (.next p env) ⟨k', update s.th p (some (f x))⟩ own own' := by
  obtain ⟨g, hQ, hs, hc, hacc, hch, hop⟩ := hst
  refine ⟨update own p g, ⟨hacc, fun q => ?_, fun q c hq => ?_, fun q hq => ?_⟩, hch, fun q => ?_⟩
  · have h1 := heldBy_update (b := g) (p := p) (add_zero (own p)).symm (.slot q)
    rw [add_zero] at h1
    change _ = if (k'.slot q).st = .used then 1 else 0
    rw [hs, ← h.slot q]
    have := hc q
    omega
  · change (k'.slot q).st = .incall ∧ _
    rw [hs]
    by_cases hqp : q = p
    · subst hqp
      simp only [Function.update_self, Option.some.injEq] at hq
      subst hq
      rw [Function.update_self]
      exact ⟨(h.run q _ hth).1, hQ⟩
    · simp only [Function.update_of_ne hqp] at hq ⊢
      exact h.run q c hq
  · change (k'.slot q).st ≠ .incall ∧ _ = (k'.slot q).res
    rw [hs]
    have hqp : q ≠ p := by
      rintro rfl
      simp at hq
    simp only [Function.update_of_ne hqp] at hq ⊢
    exact h.idle q hq
  · rw [opOf_next hth]
    by_cases hqp : p = q
    · subst hqp
      rw [if_pos rfl, Function.update_self]
      exact hop
    · rw [if_neg hqp, Function.update_of_ne (Ne.symm hqp)]

/-- The slot whose token a process holds is being filled. -/
theorem InvAt.used (h : s.InvAt own) (hq : .slot q ∈ own p) : (s.k.slot q).st = .used := by
  have h1 := heldBy_pos hq
  rw [h.slot q] at h1
  by_contra hne
  rw [if_neg hne] at h1
  cases h1

theorem InvAt.next (h : s.InvAt own) (hth : s.th p = some (.call o f)) (hG : G s.k.d.node o) (he : s.k.exec N env o = .ok (x, k')) :
    ∃ own', StepTo N G s (.next p env) ⟨k', update s.th p (some (f x))⟩ own own' := by
  have hr := (h.run p _ hth).2
  by_cases ho : o.slots = false
  · exact h.stepped hth (exec_stepped h.acc hr hG ho he)
  cases o with
  | slotalloc =>
    rw [DirK.exec_slotalloc] at he
    cases hq : (List.finRange NPROC).find? fun q => (s.k.slot q).st = .unused with
    | none =>
      rw [hq] at he
      cases he
      have hop : DirOp.slotalloc.opMove (own p) (own p) := ⟨rfl, by intros; contradiction⟩
      exact h.stepped hth (Stepped.keep (Q := fun x => SysFile.wp (f x) SysFile.Post) hr.2 rfl h.acc rfl rfl rfl (fun L => .refl) hop)
    | some q =>
      rw [hq] at he
      cases he
      have hun : (s.k.slot q).st = .unused := by simpa using List.find?_some hq
      refine h.setSlot hth (hr.1 q) (.inl hun) (by simp) (fun r hr => ?_) (fun r => ?_) ⟨by simp, by intros; contradiction⟩
      · rw [Multiset.count_add, Multiset.count_add, Multiset.count_singleton, if_neg (hr q)]
        simp [DirSlot.res]
      · rw [Multiset.count_add, Multiset.count_singleton]
        by_cases hrq : r = q
        · subst hrq
          rw [Function.update_self, hun]
          simp
          omega
        · have hne : ¬Hold.slot r = .slot q := by simpa using hrq
          rw [Function.update_of_ne hrq, if_neg hne, zero_add]
  | slotfree q =>
    obtain ⟨g, hg, hQ⟩ := hr
    cases he
    have hu := h.used (p := p) (q := q) (by rw [hg]; exact SysFile.mem_left _ _)
    refine h.setSlot hth hQ (.inr hu) (by simp) (fun r hr => ?_) (fun r => ?_) ⟨by simp [hg], by intros; contradiction⟩
    · rw [hg, Multiset.count_add, Multiset.count_add, Multiset.count_singleton, if_neg (hr q)]
      simp [DirSlot.res]
    · rw [hg, Multiset.count_add, Multiset.count_singleton]
      by_cases hrq : r = q
      · subst hrq
        rw [Function.update_self, hu]
        simp
        omega
      · have hne : ¬Hold.slot r = .slot q := by simpa using hrq
        rw [Function.update_of_ne hrq, if_neg hne, zero_add]
  | publish q l =>
    obtain ⟨g, hg, hQ⟩ := hr
    cases he
    have hu := h.used (p := p) (q := q) (by rw [hg]; exact SysFile.mem_left _ _)
    have hl : ∀ r, l.res.count (.slot r) = 0 := res_count_slot ⟨.live, l⟩
    have hlop : l.res.count .op = 0 := res_count_op ⟨.live, l⟩
    refine h.setSlot hth hQ (.inr hu) (by simp) (fun r hr => ?_) (fun r => ?_) ⟨by simp [hg, hlop], by intros; contradiction⟩
    · rw [hg, Multiset.count_add, Multiset.count_add, Multiset.count_add, Multiset.count_singleton, if_neg (hr q)]
      change g.count r + l.res.count r = _
      omega
    · rw [hg, Multiset.count_add, Multiset.count_add, Multiset.count_singleton, hl]
      by_cases hrq : r = q
      · subst hrq
        rw [Function.update_self, hu]
        simp
        omega
      · have hne : ¬Hold.slot r = .slot q := by simpa using hrq
        rw [Function.update_of_ne hrq, if_neg hne, zero_add, zero_add]
  | _ => exact absurd rfl ho

end next

theorem InvAt.step (h : s.InvAt own) {e : DirEv} (hG : s.Meets G e) (hst : s.step N e = some (.ok t)) :
    ∃ own', StepTo N G s e t own own' := by
  cases e with
  | call p c =>
    simp only [DirSys.step] at hst
    split at hst
    · rename_i hc
      cases hst
      exact h.call hc.1 hc.2
    · cases hst
  | next p env =>
    simp only [DirSys.step] at hst
    cases hth : s.th p with
    | none =>
      rw [hth] at hst
      cases hst
    | some c =>
      rw [hth] at hst
      cases c with
      | ret r => cases hst
      | panic msg => cases hst
      | call o f =>
        have hGo : G s.k.d.node o := hG p o (by rw [opOf_next hth, if_pos rfl])
        simp only [DirSys.next] at hst
        cases he : s.k.exec N env o with
        | error msg =>
          rw [he] at hst
          cases hst
        | ok xk =>
          rw [he] at hst
          cases hst
          exact h.next hth hGo he
  | done p =>
    simp only [DirSys.step] at hst
    split at hst
    · cases hst
      exact h.done ‹_›
    · cases hst

theorem Booted.eq_root (h : s.Booted) {i : Inum} (hi : 0 < s.k.d.ref i) : i = ROOTINO := by
  rw [h.ref] at hi
  by_contra hne
  rw [Function.update_of_ne hne] at hi
  cases hi

/-- After the boot the first process holds the root directory. -/
theorem Booted.invAt (h : s.Booted) : s.InvAt (update (fun _ => 0) s.k.initproc {.ref ROOTINO}) := by
  have hheld : ∀ r, heldBy (update (fun _ => 0) s.k.initproc ({.ref ROOTINO} : Multiset Hold)) r = if r = .ref ROOTINO then 1 else 0 := by
    intro r
    rw [heldBy_only, Multiset.count_singleton]
  have hslot : ∀ q, (s.k.slot q).st = .live ∧ q = s.k.initproc ∧ (s.k.slot q).res = {.ref ROOTINO} ∨
      (s.k.slot q).st = .unused ∧ q ≠ s.k.initproc ∧ (s.k.slot q).res = 0 := by
    intro q
    rw [h.slot]
    by_cases hq : q = s.k.initproc
    · subst hq
      rw [Function.update_self]
      exact .inl ⟨rfl, rfl, by simp [DirSlot.res, Local.res, Local.files]⟩
    · rw [Function.update_of_ne hq]
      exact .inr ⟨rfl, hq, rfl⟩
  refine ⟨⟨fun i => ?_, fun f => ?_, fun f hf => ?_, fun f _ => ?_⟩, fun q => ?_, fun p c hc => ?_, fun p _ => ?_⟩
  · rw [hheld, h.ref, h.conts]
    have hfiles : s.k.d.onFiles i = 0 := by
      unfold Dirs.onFiles
      simp [h.file]
    rw [hfiles]
    by_cases hi : i = ROOTINO
    · subst hi
      simp
    · simp [hi]
  · rw [h.file, hheld, hheld]
    simp
  · rw [hheld] at hf
    simp at hf
  · rw [h.file]
  · rw [hheld]
    obtain ⟨hst, -⟩ | ⟨hst, -⟩ := hslot q <;> simp [hst]
  · rw [h.th] at hc
    cases hc
  · obtain ⟨hst, rfl, hres⟩ | ⟨hst, hne, hres⟩ := hslot p
    · rw [hst, hres, Function.update_self]
      exact ⟨by simp, rfl⟩
    · rw [hst, hres, Function.update_of_ne hne]
      exact ⟨by simp, rfl⟩

end DirSys

/-- What every change keeps, from an initial state on, holds in every state of every run that meets the condition. -/
theorem dir_invariant {N : Nat} {I : (Inum → Node) → Prop} {G : DirCond} {J : Dirs → Links → Prop}
    (h0 : ∀ s : DirSys, I s.k.d.node → s.Booted → J s.k.d fun _ => 0)
    (hs : ∀ x y, J x.1 x.2 → Change N G x y → J y.1 y.2) {s : DirSys} (h : ((dirLts N I).guard (DirSys.Meets G)).Reachable s) :
    ∃ own, s.InvAt own ∧ J s.k.d (links own) := by
  have hall : ∀ x y, J x.1 x.2 → Changes N G x y → J y.1 y.2 := by
    intro x y hx hxy
    induction hxy with
    | refl => exact hx
    | tail _ hc ih => exact hs _ _ ih hc
  refine Lts.Reachable.invariant (L := (dirLts N I).guard (DirSys.Meets G))
    (I := fun s => ∃ own, s.InvAt own ∧ J s.k.d (links own)) (fun s hs => ?_) (fun s e t ih hst => ?_) h
  · refine ⟨_, hs.2.invAt, ?_⟩
    convert h0 s hs.1 hs.2 using 1
    funext i
    rw [links, heldBy_only]
    simp
  · obtain ⟨own, hinv, hJ⟩ := ih
    obtain ⟨own', ht⟩ := hinv.step hst.1 hst.2
    exact ⟨own', ht.inv, hall _ _ hJ ht.change⟩

end Xv6
