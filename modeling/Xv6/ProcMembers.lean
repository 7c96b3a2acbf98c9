import Xv6.ProcLists

/-!
# The container table

A container on `cont_run_list` has a process on its `proc_list`, except while `cfork` makes the first one and while
`freeproc` removes the container after the last one (`View.Manned`).  Calls that fail for lack of a resource break this,
so it holds in the runs without them.
-/

namespace Xv6

open Function (update)

variable {L : Type}

namespace View

variable {v w : View} {T T' : Table} {t : Thread} {x : ThView} {c : ContId}

/-- Somebody will take the container `c` off `cont_run_list`. -/
def Manned (v : View) (c : ContId) : Prop :=
  v.procList c ≠ [] ∨ (∃ t, (v.th t).role.into = some (c, true)) ∨ ∃ t q, (v.th t).role = .emptied q ∧ v.contp q = some c

/-- No lock of a container is kept, and each container but `cont_root` on `cont_run_list` is manned. -/
structure Full (v : View) : Prop where
  kept : ∀ t, (v.th t).kept = []
  manned : ∀ c ∈ v.contRun, c ≠ contRoot → v.Manned c

theorem Manned.step (h : v.Manned c) (hth : w.th = update v.th t x) (hp : v.procList c ≠ [] → w.procList c ≠ [])
    (hc : ∀ u q, (v.th u).role = .emptied q → w.contp q = v.contp q)
    (hi : (v.th t).role.into = some (c, true) → x.role.into = some (c, true) ∨ w.procList c ≠ [])
    (he : ∀ q, (v.th t).role = .emptied q → v.contp q = some c → x.role = .emptied q) : w.Manned c := by
  rcases h with h | ⟨u, hu⟩ | ⟨u, q, hu, hq⟩
  · exact .inl (hp h)
  · rcases th_cases hth u with ⟨rfl, hw⟩ | ⟨-, hw⟩
    · rcases hi hu with hx | hx
      · exact .inr (.inl ⟨u, by rw [hw]; exact hx⟩)
      · exact .inl hx
    · exact .inr (.inl ⟨u, by rw [hw]; exact hu⟩)
  · refine .inr (.inr ⟨u, q, ?_, by rw [hc u q hu]; exact hq⟩)
    rcases th_cases hth u with ⟨rfl, hw⟩ | ⟨-, hw⟩
    · rw [hw]
      exact he q hu hq
    · rw [hw]
      exact hu

theorem kept_step (h : ∀ t, (v.th t).kept = []) (hth : w.th = update v.th t x) (hx : x.kept = []) (u : Thread) :
    (w.th u).kept = [] := by
  rcases th_cases hth u with ⟨-, hw⟩ | ⟨-, hw⟩ <;> rw [hw]
  · exact hx
  · exact h u

/-- A thread changes, and the containers and `proc_list`s stay. -/
theorem Full.same (h : v.Full) (hth : w.th = update v.th t x) (hk : x.kept = (v.th t).kept) (hr : w.contRun = v.contRun)
    (hp : w.procList = v.procList) (hc : w.contp = v.contp)
    (hi : ∀ c, (v.th t).role.into = some (c, true) → x.role.into = some (c, true))
    (he : ∀ q, (v.th t).role = .emptied q → x.role = .emptied q) : w.Full := by
  refine ⟨kept_step h.kept hth (by rw [hk, h.kept]), fun c hcr hroot => ?_⟩
  rw [hr] at hcr
  exact (h.manned c hcr hroot).step hth (by rw [hp]; exact id) (fun _ _ _ => by rw [hc]) (fun hc => .inl (hi c hc))
    fun q hq _ => he q hq

/-- The new process of a `fork` is on the `proc_list`. -/
private theorem Inv.ready_mem {fr : Bool} {np : Slot} (h : v.Inv T) (ha : v.At t (.ready c fr np)) : np ∈ v.procList c := by
  have hpl : T.place np = .hand .start t := h.place_of_hand ha (k := .start) rfl
  have hatt : T.att np = .member := h.member (by rw [hpl]; rfl) fun u _ => by simp [hpl]
  have hc : v.contp np = some c := h.links.target t c fr np (by rw [ha.role]; rfl) (by rw [ha.role]; rfl)
  exact ((h.memb.proc c).2 np).2 (Prod.ext hatt hc)

private theorem Full.resetTh {np : Slot} (h : v.Full) (hI : v.Inv T) (hna : (T.place np).alive = false) :
    (v.setTh (some np) ⟨.idle, none, .off false, []⟩).Full := by
  have hr := (hI.harts.clean np hna).role
  exact h.same rfl (h.kept _).symm rfl rfl rfl (by rw [hr]; nofun) (by rw [hr]; nofun)

private theorem Full.allocprocInit {fr : Bool} {np : Slot} (h : v.Full) (hI : v.Inv T) (ha : v.At t (.locked c fr np))
    (hth : w.th = update (update v.th (some np) ⟨.idle, none, .off false, []⟩) t x) (hx : x.role = .made c fr np)
    (hxk : x.kept = []) (hr : w.contRun = v.contRun) (hp : w.procList = v.procList)
    (hc : w.contp = update v.contp np (some c)) : w.Full := by
  obtain ⟨hpl, hout⟩ := hI.locked_out ha
  have hna : (T.place np).alive = false := by rw [hpl]; rfl
  have hne : t ≠ some np := by
    rintro rfl
    have hr := ha.role
    rw [(hI.harts.clean np hna).role] at hr
    cases hr
  have hu := h.resetTh hI hna
  have hut : (v.setTh (some np) ⟨.idle, none, .off false, []⟩).th t = v.th t := Function.update_of_ne hne ..
  refine ⟨kept_step hu.kept hth hxk, fun d hd hroot => ?_⟩
  rw [hr] at hd
  refine (hu.manned d hd hroot).step hth (by rw [hp]; exact id) ?_ ?_ ?_
  · intro y q hy
    rw [hc]
    refine Function.update_of_ne ?_ ..
    rintro rfl
    obtain ⟨d, hd, -⟩ := (hI.resetTh hna).links.emptied y _ hy
    change v.contp _ = some d at hd
    rw [(hI.memb.out _).2 hout] at hd
    cases hd
  · rw [hut, ha.role, hx]
    exact .inl
  · rw [hut, ha.role]
    nofun

theorem Full.step (h : v.Full) (hI : v.Inv T) (hs : v.Step w) : w.Full := by
  cases hs with
  | schedulerPop hk hl => exact ⟨h.kept, h.manned⟩
  | schedulerRun hk hf => exact h.same rfl rfl rfl rfl rfl (fun _ => id) fun _ => id
  | yield hon hsw hi hf => exact h.same rfl rfl rfl rfl rfl (fun _ => id) fun _ => id
  | yieldPush hsw hc => exact h.same rfl rfl rfl rfl rfl (fun _ => id) fun _ => id
  | @sched p b hsw hk =>
    exact h.same (x := { v.th (some p) with sw := .off b }) rfl rfl rfl rfl rfl (fun _ => id) fun _ => id
  | wakeupCall ha hr => exact h.same rfl rfl rfl rfl rfl (fun _ => id) fun _ => id
  | wakeupHit hw hf hst => exact h.same rfl rfl rfl rfl rfl (fun _ => id) fun _ => id
  | wakeupPush hw hc => exact h.same rfl rfl rfl rfl rfl (fun _ => id) fun _ => id
  | wakeupEnd hw => exact h.same rfl rfl rfl rfl rfl (fun _ => id) fun _ => id
  | sleep ha hf => exact h.same rfl rfl rfl rfl rfl (fun _ => id) fun _ => id
  | alloccontPop ha hu => exact h.same rfl rfl rfl rfl rfl (by rw [ha.role]; simp [Role.into]) (by rw [ha.role]; simp)
  | @alloccontInit p c ha =>
    have hnl : c ∉ v.contRun := by
      rw [hI.conts.run.2, (hI.conts.hand (some p) .taken c).1]
      · simp
      · change (v.th (some p)).role.contHand .taken = some c
        rw [ha.role]
        rfl
    refine ⟨kept_step h.kept rfl (h.kept _), fun d hd hroot => (h.manned d hd hroot).step rfl ?_ (fun _ _ _ => rfl)
      (by rw [ha.role]; simp [Role.into]) (by rw [ha.role]; simp)⟩
    have hdc : d ≠ c := by
      rintro rfl
      exact hnl hd
    intro hp
    simpa [goto, setTh, setRun, setProcs, setUsed, hdc] using hp
  | @cforkPush p c ha =>
    refine ⟨kept_step h.kept rfl (h.kept _), fun d hd hroot => ?_⟩
    rcases List.mem_append.1 hd with hd | hd
    · exact (h.manned d hd hroot).step rfl id (fun _ _ _ => rfl) (by rw [ha.role]; simp [Role.into]) (by rw [ha.role]; simp)
    · rw [List.mem_singleton.1 hd]
      exact .inr (.inl ⟨some p, by simp [goto, setTh, Role.into]⟩)
  | callFork ha hc => exact h.same rfl rfl rfl rfl rfl (by rw [ha.role]; simp [Role.into]) (by rw [ha.role]; simp)
  | allocprocPop ha hu => exact h.same rfl rfl rfl rfl rfl (by rw [ha.role]; exact fun _ => id) (by rw [ha.role]; simp)
  | allocprocLock ha hf => exact h.same rfl rfl rfl rfl rfl (by rw [ha.role]; exact fun _ => id) (by rw [ha.role]; simp)
  | @allocprocInit t c fr np ha =>
    refine h.allocprocInit hI ha rfl rfl ?_ rfl rfl rfl
    exact kept_step (w := v.setTh (some np) ⟨.idle, none, .off false, []⟩) h.kept rfl rfl t
  | @allocprocList t c fr np ha =>
    refine ⟨kept_step h.kept rfl (h.kept _), fun d hd hroot => (h.manned d hd hroot).step rfl ?_ (fun _ _ _ => rfl)
      (by rw [ha.role]; exact .inl) (by rw [ha.role]; simp)⟩
    intro hp
    by_cases hdc : d = c
    · simp [goto, setTh, setProcs, hdc]
    · simpa [goto, setTh, setProcs, hdc] using hp
  | forkCopy ha => exact h.same rfl rfl rfl rfl rfl (by rw [ha.role]; exact fun _ => id) (by rw [ha.role]; simp)
  | userinit ha => exact h.same rfl rfl rfl rfl rfl (by rw [ha.role]; exact fun _ => id) (by rw [ha.role]; simp)
  | forkRunnable ha hf => exact h.same rfl rfl rfl rfl rfl (by rw [ha.role]; exact fun _ => id) (by rw [ha.role]; simp)
  | @forkPush t c fr np ha =>
    refine ⟨kept_step h.kept rfl (h.kept _), fun d hd hroot => (h.manned d hd hroot).step rfl id (fun _ _ _ => rfl)
      (fun hi => .inr ?_) (by rw [ha.role]; simp)⟩
    rw [ha.role] at hi
    cases hi
    exact List.ne_nil_of_mem (hI.ready_mem ha)
  | callExit ha hi => exact h.same rfl rfl rfl rfl rfl (by rw [ha.role]; simp [Role.into]) (by rw [ha.role]; simp)
  | exitLast ha hf => exact h.same rfl rfl rfl rfl rfl (by rw [ha.role]; simp [Role.into]) (by rw [ha.role]; simp)
  | scanZombie ha hf hst => exact h.same rfl rfl rfl rfl rfl (by rw [ha.role]; simp [Role.into]) (by rw [ha.role]; simp)
  | @freeprocUnlist p q c ha hc =>
    refine ⟨kept_step h.kept rfl (h.kept _), fun d hd hroot => ?_⟩
    by_cases hdc : d = c
    · by_cases hnil : (v.procList c).erase q = []
      · exact .inr (.inr ⟨some p, q, by simp [goto, setTh, hnil], by rw [hdc]; exact hc⟩)
      · exact .inl (by simpa [goto, setTh, setProcs, hdc] using hnil)
    · refine (h.manned d hd hroot).step rfl (fun hp => ?_) (fun _ _ _ => rfl) (by rw [ha.role]; simp [Role.into]) (by rw [ha.role]; simp)
      simpa [goto, setTh, setProcs, hdc] using hp
  | @freeprocContOff p q c ha hc =>
    refine ⟨kept_step h.kept rfl (h.kept _), fun d hd hroot => ?_⟩
    obtain ⟨hdc, hd⟩ := hI.conts.run.1.mem_erase_iff.1 hd
    refine (h.manned d hd hroot).step rfl id (fun _ _ _ => rfl) (by rw [ha.role]; simp [Role.into]) fun q' hq' hqd => ?_
    rw [ha.role] at hq'
    cases hq'
    rw [hc] at hqd
    exact absurd (Option.some.inj hqd).symm hdc
  | freecont ha hc => exact h.same rfl rfl rfl rfl rfl (by rw [ha.role]; simp [Role.into]) (by rw [ha.role]; simp)
  | @freeprocUnlink p q ha =>
    refine ⟨kept_step h.kept rfl (h.kept _), fun d hd hroot => (h.manned d hd hroot).step rfl id ?_
      (by rw [ha.role]; simp [Role.into]) (by rw [ha.role]; simp)⟩
    intro u a hu
    refine Function.update_of_ne ?_ ..
    rintro rfl
    have hup : u = some p := hI.holder_unique (by rw [ha.role]; rfl) (by rw [hu]; rfl)
    rw [hup, ha.role] at hu
    cases hu
  | killHit ha hf hst => exact h.same rfl rfl rfl rfl rfl (by rw [ha.role]; simp [Role.into]) (by rw [ha.role]; simp)
  | killPush ha hc => exact h.same rfl rfl rfl rfl rfl (by rw [ha.role]; simp [Role.into]) (by rw [ha.role]; simp)

end View

/-! ### The table between calls -/

/-- The point is in no call of `fork`, `cfork`, `exit` or `wait` and not in `userinit`. -/
def Pc.outside : Pc L → Bool
  | run | dead | kill .. | killPush _ | acquiresleep _ | releasesleep _ => true
  | _ => false

/-- No call of `fork`, `cfork`, `exit` or `wait` is in progress. -/
def Sys.Quiet (s : Sys L) : Prop := ∀ t, (s.th t).pc.outside = true

instance (s : Sys L) : Decidable s.Quiet := inferInstanceAs (Decidable (∀ _, _))

/-- The lists and states of the containers and their `proc_list`s agree. -/
structure Sys.ContsAgree (s : Sys L) : Prop where
  unused_nodup : s.contUnused.Nodup
  run_nodup : s.contRun.Nodup
  one : ∀ c, c ∈ s.contUnused ↔ c ∉ s.contRun
  unused : ∀ c, c ∈ s.contUnused ↔ (s.cont c).used = false
  proc_nodup : ∀ c, (s.cont c).procList.Nodup
  proc : ∀ c q, q ∈ (s.cont c).procList ↔ (s.proc q).state ≠ .unused ∧ (s.proc q).contp = some c
  nonempty : ∀ c, (s.cont c).used = true → c ≠ contRoot → (s.cont c).procList ≠ []

/-- A thread outside these calls has nothing to do with `proc_list`s and containers. -/
theorem Pc.outside_role {pc : Pc L} (h : pc.outside = true) : pc.role = .idle ∨ ∃ q, pc.role = .killing q := by
  cases pc <;> simp_all [outside, role]

theorem Sys.Quiet.role {s : Sys L} (hq : s.Quiet) (t : Thread) :
    (s.view.th t).role = .idle ∨ ∃ q, (s.view.th t).role = .killing q :=
  Pc.outside_role (hq t)

theorem Sys.ContsAgree.of_inv {s : Sys L} {T : Table} (h : s.view.Inv T) (hf : s.view.Full) (hq : s.Quiet) :
    s.ContsAgree := by
  have hcont : ∀ c, T.cont c = .free ∨ T.cont c = .live := by
    intro c
    cases hc : T.cont c with
    | free => exact .inl rfl
    | live => exact .inr rfl
    | hand k t =>
      have := (h.conts.hand t k c).2 hc
      simp only at this
      rcases hq.role t with hr | ⟨q, hr⟩ <;> rw [hr] at this <;> cases k <;> cases this
    | off t =>
      obtain ⟨q, hr', -⟩ := h.conts.off t c hc
      rcases hq.role t with hr | ⟨q, hr⟩ <;> rw [hr] at hr' <;> cases hr'
    | kept t =>
      have := (h.conts.kept t c).2 hc
      rw [hf.kept] at this
      cases this
  have hunused : ∀ c, c ∈ s.contUnused ↔ T.cont c = .free := fun c => h.conts.unused.2 c
  have hrun : ∀ c, c ∈ s.contRun ↔ T.cont c = .live := fun c => h.conts.run.2 c
  have hused : ∀ c, (s.cont c).used = true ↔ T.cont c = .live := by
    intro c
    refine (h.conts.used c).trans ?_
    rcases hcont c with hc | hc <;> simp [hc]
  have hatt : ∀ q, (s.proc q).state ≠ .unused → T.att q = .member := by
    intro q hst
    refine h.member ?_ fun u hu => ?_
    · rw [← Bool.not_eq_true]
      exact fun hv => hst ((h.elem.state q).trans ((Place.unused_iff _).2 hv))
    · rcases hq.role u with hr | ⟨q, hr⟩ <;> rw [hr] at hu <;> cases hu
  refine ⟨h.conts.unused.1, h.conts.run.1, ?_, ?_, fun c => (h.memb.proc c).1, ?_, ?_⟩
  · intro c
    rw [hunused, hrun]
    rcases hcont c with hc | hc <;> simp [hc]
  · intro c
    rw [hunused, ← Bool.not_eq_true, hused]
    rcases hcont c with hc | hc <;> simp [hc]
  · intro c q
    have hmem : q ∈ (s.cont c).procList ↔ T.att q = .member ∧ (s.proc q).contp = some c := by
      refine ((h.memb.proc c).2 q).trans ?_
      simp [Sys.view]
    rw [hmem]
    constructor
    · rintro ⟨hm, hc⟩
      refine ⟨fun hst => ?_, hc⟩
      have hv : (T.place q).vacant := (Place.unused_iff _).1 ((h.elem.state q).symm.trans hst)
      rcases h.memb.vacant q hv with ho | ⟨t, ho⟩ | ⟨-, t, hr'⟩
      · rw [hm] at ho
        cases ho
      · rw [hm] at ho
        cases ho
      · rcases hq.role t with hr | ⟨q, hr⟩ <;> rw [hr] at hr' <;> cases hr'
    · exact And.imp_left (hatt q)
  · intro c hu hroot
    rcases hf.manned c ((hrun c).2 ((hused c).1 hu)) hroot with hp | ⟨t, ht⟩ | ⟨t, q, ht, -⟩
    · exact hp
    · rcases hq.role t with hr | ⟨q, hr⟩ <;> rw [hr] at ht <;> cases ht
    · rcases hq.role t with hr | ⟨q, hr⟩ <;> rw [hr] at ht <;> cases ht

section

variable [DecidableEq L] [Fintype L] {s : Sys L}

theorem view_full (h : ((procLts L).guard fun s e => s.Lacks e = false).Reachable s) :
    ∃ T, s.view.Inv T ∧ s.view.Full := by
  refine h.invariant (I := fun s => ∃ T, s.view.Inv T ∧ s.view.Full) ?_ ?_
  · rintro s rfl
    refine ⟨_, procinit_inv, fun _ => rfl, ?_⟩
    intro c hc hroot
    exact absurd (List.mem_singleton.1 hc) hroot
  · rintro s e s' ⟨T, hT, hf⟩ ⟨hl, hst⟩
    rcases (Sys.step_sect hst).view with heq | hstep | ⟨-, hlack⟩
    · exact ⟨T, by rwa [heq], by rwa [heq]⟩
    · obtain ⟨T', hT'⟩ := hT.step hstep
      exact ⟨T', hT', hf.step hT hstep⟩
    · rw [hl] at hlack
      cases hlack

/-- The container table between calls, in every run in which no call fails for lack of a resource or a path. -/
theorem conts_agree (h : ((procLts L).guard fun s e => s.Lacks e = false).Reachable s) (hq : s.Quiet) :
    s.ContsAgree := by
  obtain ⟨T, hT, hf⟩ := view_full h
  exact .of_inv hT hf hq

end

/-- The first process is started and makes a container. -/
def cforkRun : List (Ev Unit) :=
  List.replicate 6 (.next none) ++
    [.pop ⟨0, NCPU_pos⟩ contRoot, .switch ⟨0, NCPU_pos⟩, .call ⟨0, NPROC_pos⟩ (.cfork [0x63] 7)] ++
    List.replicate 11 (.next (some ⟨0, NPROC_pos⟩))

theorem conts_agree_cforkRun : ∃ s : Sys Unit, s.Quiet ∧ (∃ c, c ≠ contRoot ∧ (s.cont c).used = true) ∧ s.ContsAgree := by
  obtain ⟨s, hr, hs⟩ := Sys.reaches (fun s e => !s.Lacks e) (fun s e h => by simpa using h) cforkRun
    (fun s : Sys Unit => decide (s.Quiet ∧ ∃ c, c ≠ contRoot ∧ (s.cont c).used = true)) (by decide +kernel)
  obtain ⟨hq, hc⟩ := of_decide_eq_true hs
  exact ⟨s, hq, hc, conts_agree hr hq⟩

end Xv6
