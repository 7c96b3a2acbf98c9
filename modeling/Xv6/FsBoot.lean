import Xv6.FsSys
import Xv6.LogCrash

/-!
# The cache after a boot

Whatever is on the disk: where `initlog` returns, no process is in the file system, each valid buffer has the data of its block, and the
log is empty (`initlog_init`).
-/

namespace Xv6

open Function (update)
open Store

/-- Between two steps of the recovery: `lg` is the log, and the valid buffers but `e` have the data of their block. -/
structure Store.Tidy (lg : Log) (e : Option (Fin NBUF)) (s : Store) : Prop where
  log : s.log = lg
  lru : ∀ i, i ∈ s.lru
  devs : ∀ i, (s.buf i).dev = ROOTDEV ∨ (s.buf i).dev = 0
  dev : ∀ i, (s.buf i).valid = true → (s.buf i).dev = ROOTDEV
  unique : ∀ i j, (s.buf i).dev = ROOTDEV → (s.buf j).dev = ROOTDEV → (s.buf i).blockno = (s.buf j).blockno → i = j
  data : ∀ i, some i ≠ e → (s.buf i).valid = true → (s.buf i).data = s.disk (s.buf i).blockno

namespace Store

variable {s t : Store} {lg : Log} {e : Option (Fin NBUF)} {i : Fin NBUF}

/-- A change of the counts and the order of the buffers. -/
theorem Tidy.keep (h : s.Tidy lg e) (hl : ∀ i, i ∈ t.lru) (hlog : t.log = s.log) (hd : t.disk = s.disk)
    (hb : ∀ i, t.buf i = { s.buf i with refcnt := (t.buf i).refcnt }) : t.Tidy lg e := by
  have hfield : ∀ i, (t.buf i).valid = (s.buf i).valid ∧ (t.buf i).dev = (s.buf i).dev ∧ (t.buf i).blockno = (s.buf i).blockno ∧
      (t.buf i).data = (s.buf i).data := by
    intro i
    rw [hb i]
    exact ⟨by rfl, by rfl, by rfl, by rfl⟩
  refine ⟨hlog.trans h.log, hl, fun i => ?_, fun i hv => ?_, fun i j hi hj hij => ?_, fun i he hv => ?_⟩
  · rw [(hfield i).2.1]
    exact h.devs i
  · rw [(hfield i).2.1]
    exact h.dev i ((hfield i).1 ▸ hv)
  · rw [(hfield i).2.1] at hi
    rw [(hfield j).2.1] at hj
    rw [(hfield i).2.2.1, (hfield j).2.2.1] at hij
    exact h.unique i j hi hj hij
  · rw [(hfield i).2.2.2, (hfield i).2.2.1, hd]
    exact h.data i he ((hfield i).1 ▸ hv)

theorem Tidy.release (h : s.Tidy lg e) (i : Fin NBUF) : (s.release i).Tidy lg e := by
  refine h.keep (mem_release_lru h.lru i) (release_log s i) (release_disk s i) fun j => ?_
  rw [release_buf]
  by_cases hj : j = i
  · subst hj
    rw [Function.update_self]
  · rw [Function.update_of_ne hj]

theorem Tidy.withLog (h : s.Tidy lg e) (lg' : Log) : ({ s with log := lg' } : Store).Tidy lg' e :=
  ⟨rfl, h.lru, h.devs, h.dev, h.unique, h.data⟩

/-- The buffer that `bread` returns is valid. -/
theorem Tidy.bread (h : s.Tidy lg none) (hdev : lg.dev = ROOTDEV) (b : UInt32) :
    wp (Xv6.bread lg.dev b) (fun i t => t.Tidy lg none ∧ (t.buf i).valid = true) (fun _ _ => True) s := by
  rw [hdev]
  refine wp_mono (bread_spec h.lru _ _) ?_ fun _ _ _ => trivial
  rintro i _ ⟨v, hgot, rfl⟩
  have hne : ∀ j, j ≠ i → ¬s.Caches ROOTDEV b j := by
    intro j hj hc
    rcases hgot with ⟨hi, -⟩ | ⟨hn, -⟩
    · exact hj (h.unique j i hc.1 hi.1 (hc.2.trans hi.2.symm))
    · exact hn j hc
  have hv : v = s.disk b := by
    refine hgot.eq_disk fun j hc hv => ?_
    rw [h.data j (by simp) hv, hc.2]
  refine ⟨⟨h.log, h.lru, fun j => ?_, fun j hvj => ?_, fun j k hj hk hjk => ?_, fun j _ hvj => ?_⟩, by rw [setBuf_buf_self]⟩
  · by_cases hj : j = i
    · subst hj
      rw [setBuf_buf_self]
      exact .inl (by rfl)
    · rw [setBuf_buf_ne _ hj]
      exact h.devs j
  · by_cases hj : j = i
    · subst hj
      rw [setBuf_buf_self]
    · rw [setBuf_buf_ne _ hj] at hvj ⊢
      exact h.dev j hvj
  · by_cases hji : j = i
    · subst hji
      by_cases hkj : k = j
      · exact hkj.symm
      · rw [setBuf_buf_self, setBuf_buf_ne _ hkj] at hjk
        rw [setBuf_buf_ne _ hkj] at hk
        exact absurd ⟨hk, hjk.symm⟩ (hne k hkj)
    · rw [setBuf_buf_ne _ hji] at hj hjk
      by_cases hki : k = i
      · subst hki
        rw [setBuf_buf_self] at hjk
        exact absurd ⟨hj, hjk⟩ (hne j hji)
      · rw [setBuf_buf_ne _ hki] at hk hjk
        exact h.unique j k hj hk hjk
  · by_cases hj : j = i
    · subst hj
      rw [setBuf_buf_self]
      exact hv
    · rw [setBuf_buf_ne _ hj] at hvj ⊢
      exact h.data j (by simp) hvj

/-- A buffer is changed, and written to the disk at once. -/
theorem Tidy.write (h : s.Tidy lg none) (hv : (s.buf i).valid = true) (d : Block) :
    wp (do setData i d; bwrite i : Io Unit) (fun _ t => t.Tidy lg none) (fun _ _ => True) s := by
  simp only [wp_bind, setData, bwrite, virtioDiskRw, wp_modify, ↓reduceIte, setBuf_buf_self]
  have hfield : ∀ j, ((s.setBuf i { s.buf i with data := d }).buf j).valid = (s.buf j).valid ∧
      ((s.setBuf i { s.buf i with data := d }).buf j).dev = (s.buf j).dev ∧
      ((s.setBuf i { s.buf i with data := d }).buf j).blockno = (s.buf j).blockno := by
    intro j
    by_cases hj : j = i
    · subst hj
      simp
    · simp [setBuf_buf_ne _ hj]
  refine ⟨h.log, h.lru, fun j => ?_, fun j hvj => ?_, fun j k hj hk hjk => ?_, fun j _ hvj => ?_⟩
  · rw [(hfield j).2.1]
    exact h.devs j
  · rw [(hfield j).2.1]
    exact h.dev j ((hfield j).1 ▸ hvj)
  · rw [(hfield j).2.1] at hj
    rw [(hfield k).2.1] at hk
    rw [(hfield j).2.2, (hfield k).2.2] at hjk
    exact h.unique j k hj hk hjk
  · rw [(hfield j).1] at hvj
    by_cases hj : j = i
    · subst hj
      simp
    · have hne : (s.buf j).blockno ≠ (s.buf i).blockno := fun hb => hj (h.unique j i (h.dev j hvj) (h.dev i hv) hb)
      rw [(hfield j).2.2, setBuf_buf_ne _ hj]
      show _ = update s.disk _ d _
      rw [Function.update_of_ne hne]
      exact h.data j (by simp) hvj

end Store

section

variable {s : Store} {lg : Log}

theorem readHead_tidy (h : s.Tidy lg none) (hdev : lg.dev = ROOTDEV) :
    wp readHead (fun _ t => ∃ lh, t.Tidy { lg with lh := lh } none) (fun _ _ => True) s := by
  simp only [readHead, wp_bind, wp_get, brelse, wp_modify]
  rw [h.log]
  refine wp_mono (h.bread hdev lg.start) ?_ fun _ _ => id
  rintro i t ⟨ht, -⟩
  rw [ht.log]
  exact ⟨_, (ht.withLog _).release i⟩

theorem writeHead_tidy (h : s.Tidy lg none) (hdev : lg.dev = ROOTDEV) :
    wp writeHead (fun _ t => t.Tidy lg none) (fun _ _ => True) s := by
  simp only [writeHead, wp_bind, wp_get, brelse, wp_modify]
  rw [h.log]
  refine wp_mono (h.bread hdev lg.start) ?_ fun _ _ => id
  rintro i t ⟨ht, hv⟩
  have hw := ht.write hv (putHeader (t.buf i).data lg.lh)
  rw [wp_bind] at hw
  refine wp_mono hw (fun _ t ht => wp_mono ht (fun _ u hu => ?_) fun _ _ => id) fun _ _ => id
  exact hu.release i

theorem installEntry_tidy (h : s.Tidy lg none) (hdev : lg.dev = ROOTDEV) (recovering : Bool) (tail : Nat) (b : UInt32) :
    wp (installEntry lg recovering tail b) (fun _ t => t.Tidy lg none) (fun _ _ => True) s := by
  simp only [installEntry, wp_bind, wp_get]
  refine wp_mono (h.bread hdev (lg.slot tail)) ?_ fun _ _ => id
  rintro i t ⟨ht, -⟩
  refine wp_mono (ht.bread hdev b) ?_ fun _ _ => id
  rintro j u ⟨hu, hv⟩
  have hw := hu.write hv (u.buf i).data
  rw [wp_bind] at hw
  refine wp_mono hw (fun _ t ht => wp_mono ht (fun _ x hx => ?_) fun _ _ => id) fun _ _ => id
  cases recovering with
  | true => exact (hx.release i).release j
  | false =>
    have hu : (x.setBuf j { x.buf j with refcnt := (x.buf j).refcnt - 1 }).Tidy lg none := by
      refine hx.keep hx.lru (by rfl) (by rfl) fun k => ?_
      by_cases hk : k = j
      · subst hk
        rw [setBuf_buf_self]
      · rw [setBuf_buf_ne _ hk]
    exact (hu.release i).release j

theorem installFrom_tidy (h : s.Tidy lg none) (hdev : lg.dev = ROOTDEV) (recovering : Bool) (tail : Nat) (bs : List UInt32) :
    wp (installFrom lg recovering tail bs) (fun _ t => t.Tidy lg none) (fun _ _ => True) s := by
  induction bs generalizing s tail with
  | nil => exact h
  | cons b bs ih =>
    simp only [installFrom, wp_bind]
    exact wp_mono (installEntry_tidy h hdev recovering tail b) (fun _ t ht => ih ht (tail + 1)) fun _ _ => id

theorem recoverFromLog_tidy (h : s.Tidy lg none) (hdev : lg.dev = ROOTDEV) :
    wp recoverFromLog (fun _ t => t.Tidy { lg with lh := [] } none) (fun _ _ => True) s := by
  simp only [recoverFromLog, wp_bind, wp_get, installTrans, clearHeader, wp_modify]
  refine wp_mono (readHead_tidy h hdev) ?_ fun _ _ => id
  rintro _ t ⟨lh, ht⟩
  rw [ht.log]
  refine wp_mono (installFrom_tidy ht hdev true 0 lh) (fun _ u hu => ?_) fun _ _ => id
  rw [hu.log]
  exact writeHead_tidy (hu.withLog _) hdev

/-- The log after a boot. -/
theorem initlog_tidy {start : UInt32} {nlog : Int} {d : Disk} {r : Store} (h : initlog ROOTDEV start nlog (binit log0 d) = .ok () r) :
    r.Tidy { log0 with start := start, size := nlog, dev := ROOTDEV } none := by
  have hb : (binit { log0 with start := start, size := nlog, dev := ROOTDEV } d).Tidy
      { log0 with start := start, size := nlog, dev := ROOTDEV } none := by
    refine ⟨rfl, fun i => ?_, fun i => .inr (by rfl), fun i hv => ?_, fun i j hi hj => ?_, fun i _ hv => ?_⟩
    · simp [binit]
    · cases hv
    · exact absurd (show (0 : UInt32) = ROOTDEV from hi) (by decide)
    · cases hv
  have hw : wp (initlog ROOTDEV start nlog) (fun _ t => t.Tidy { log0 with start := start, size := nlog, dev := ROOTDEV } none)
      (fun _ _ => True) (binit log0 d) := by
    simp only [initlog, wp_bind, wp_ite, wp_modify]
    rw [if_neg (by decide)]
    exact recoverFromLog_tidy hb (by rfl)
  unfold wp at hw
  rw [h] at hw
  exact hw

end

namespace FsSys

variable {P : Type}

/-- The system after a boot: no process is in the file system. -/
def boot (r : Store) : FsSys P := ⟨r, fun _ => none, fun _ => ⟨.run (.pure ()), .out⟩⟩

theorem initlog_init {start : UInt32} {nlog : Int} {d : Disk} {r : Store} (h : initlog ROOTDEV start nlog (binit log0 d) = .ok () r) :
    (boot r : FsSys P).Init := by
  have ht := initlog_tidy h
  refine ⟨fun t => by rfl, fun i => by rfl, ?_, ?_, ?_, ht.lru, ht.dev, ht.unique, fun i hv => ht.data i (by simp) hv⟩
  · show r.log.lh = []
    rw [ht.log]
    rfl
  · show r.log.outstanding = 0
    rw [ht.log]
    rfl
  · show r.log.committing = false
    rw [ht.log]
    rfl

end FsSys

end Xv6
