import Xv6.CopyOut
import Xv6.Lib.Bytes

/-!
# `copyin`, `copyout` and `copyinstr`, byte by byte

The three loops over one physical memory, for kernel buffers anywhere outside the user's pages.  What they do does not mention pages:
they move the bytes of the range in order, up to the first one that the user has no page for.
-/

namespace Xv6

namespace CopyBytes

open Function (update)

/-- `walkaddr`: the physical address of the page, 0 if there is none. -/
def walkaddr (t : PageTable) (va : Nat) : Nat :=
  match Mem.walkaddr t va with
  | none => 0
  | some page => page * PGSIZE

def memmove (m : Bytes) (dst src n : Nat) : Bytes := fun a => if dst ≤ a ∧ a < dst + n then m (src + (a - dst)) else m a

/-- The loop of `copyout`. -/
def copyoutLoop (t : PageTable) : Nat → Nat → Nat → Nat → Bytes → Bool × Bytes
  | 0, _, _, _, m => (true, m)
  | fuel + 1, dstva, src, len, m =>
    if len = 0 then (true, m)
    else
      let va0 := PGROUNDDOWN dstva
      let pa0 := walkaddr t va0
      if pa0 = 0 then (false, m)
      else
        let n := min (PGSIZE - (dstva - va0)) len
        copyoutLoop t fuel ((va0 + PGSIZE) % 2 ^ 64) (src + n) (len - n) (memmove m (pa0 + (dstva - va0)) src n)

/-- The answer is `false` for -1.  A turn of the loop moves at least one byte. -/
def copyout (t : PageTable) (dstva src len : Nat) (m : Bytes) : Bool × Bytes := copyoutLoop t len dstva src len m

/-- The loop of `copyin`. -/
def copyinLoop (t : PageTable) : Nat → Nat → Nat → Nat → Bytes → Bool × Bytes
  | 0, _, _, _, m => (true, m)
  | fuel + 1, dst, srcva, len, m =>
    if len = 0 then (true, m)
    else
      let va0 := PGROUNDDOWN srcva
      let pa0 := walkaddr t va0
      if pa0 = 0 then (false, m)
      else
        let n := min (PGSIZE - (srcva - va0)) len
        copyinLoop t fuel (dst + n) ((va0 + PGSIZE) % 2 ^ 64) (len - n) (memmove m dst (pa0 + (srcva - va0)) n)

def copyin (t : PageTable) (dst srcva len : Nat) (m : Bytes) : Bool × Bytes := copyinLoop t len dst srcva len m

/-- The inner loop of `copyinstr` with `n` bytes of the page left: whether it got a null, and `max`, `dst` and the memory after it. -/
def copyinstrPage : Nat → Nat → Nat → Nat → Bytes → Bool × Nat × Nat × Bytes
  | 0, _, dst, max, m => (false, max, dst, m)
  | n + 1, p, dst, max, m =>
    if m p = 0 then (true, max, dst, update m dst 0)
    else copyinstrPage n (p + 1) (dst + 1) (max - 1) (update m dst (m p))

/-- The loop of `copyinstr`. -/
def copyinstrLoop (t : PageTable) : Nat → Bool → Nat → Nat → Nat → Bytes → Bool × Bytes
  | 0, gotNull, _, _, _, m => (gotNull, m)
  | fuel + 1, gotNull, dst, srcva, max, m =>
    if gotNull = false ∧ max > 0 then
      let va0 := PGROUNDDOWN srcva
      let pa0 := walkaddr t va0
      if pa0 = 0 then (false, m)
      else
        let n := min (PGSIZE - (srcva - va0)) max
        let (gotNull, max, dst, m) := copyinstrPage n (pa0 + (srcva - va0)) dst max m
        copyinstrLoop t fuel gotNull dst ((va0 + PGSIZE) % 2 ^ 64) max m
    else (gotNull, m)

def copyinstr (t : PageTable) (dst srcva max : Nat) (m : Bytes) : Bool × Bytes := copyinstrLoop t max false dst srcva max m

/-! ### Where the user's bytes are -/

/-- The physical address of a byte of the user's. -/
def phys (t : PageTable) (va : Nat) : Option Nat :=
  match Mem.walkaddr t (PGROUNDDOWN va) with
  | none => none
  | some page => some (page * PGSIZE + va % PGSIZE)

/-- Distinct pages of the user are distinct physical pages, and not the one with number 0. -/
structure UserPages (t : PageTable) : Prop where
  distinct : ∀ i < 2 ^ 27, ∀ j < 2 ^ 27, ∀ e e', t.get i = some e → t.get j = some e' → e.perm.u = true → e'.perm.u = true →
    e.page = e'.page → i = j
  nonzero : ∀ i < 2 ^ 27, ∀ e, t.get i = some e → e.perm.u = true → e.page ≠ 0

/-- The buffer of `n` bytes at `a` is outside of the user's pages. -/
def Outside (t : PageTable) (a n : Nat) : Prop := ∀ va pa, phys t va = some pa → pa < a ∨ a + n ≤ pa

variable {t : PageTable} {va : Nat}

theorem userAt_iff : t.UserAt va ↔ ∃ pa, phys t va = some pa := by
  unfold PageTable.UserAt phys
  cases hw : Mem.walkaddr t (PGROUNDDOWN va) with
  | none =>
    constructor
    · rintro ⟨hlt, e, he, hu⟩
      rw [Ram.walkaddr_eq_some.2 ⟨hlt, e, he, hu, rfl⟩] at hw
      cases hw
    · rintro ⟨pa, hpa⟩
      cases hpa
  | some page =>
    obtain ⟨hlt, e, he, hu, -⟩ := Ram.walkaddr_eq_some.1 hw
    exact ⟨fun _ => ⟨_, rfl⟩, fun _ => ⟨hlt, e, he, hu⟩⟩

/-- The bytes of one page. -/
theorem walkaddr_spec (hp : UserPages t) (va : Nat) : (walkaddr t (PGROUNDDOWN va) = 0 ∧ phys t va = none) ∨
    (walkaddr t (PGROUNDDOWN va) ≠ 0 ∧ va < MAXVA ∧ ∀ k, va % PGSIZE + k < PGSIZE →
      phys t (va + k) = some (walkaddr t (PGROUNDDOWN va) + (va - PGROUNDDOWN va) + k)) := by
  unfold walkaddr
  cases hw : Mem.walkaddr t (PGROUNDDOWN va) with
  | none => exact .inl ⟨rfl, by rw [phys, hw]⟩
  | some page =>
    obtain ⟨hlt, e, he, hu, hpage⟩ := Ram.walkaddr_eq_some.1 hw
    have hne := hp.nonzero _ (Ram.page_lt hlt) e he hu
    refine .inr ⟨Nat.mul_ne_zero (hpage ▸ hne) (by decide), hlt, fun k hk => ?_⟩
    have hdown : PGROUNDDOWN (va + k) = PGROUNDDOWN va := by
      simp only [PGROUNDDOWN, PGSIZE] at hk ⊢
      omega
    have hmod : (va + k) % PGSIZE = va % PGSIZE + k := by
      simp only [PGSIZE] at hk ⊢
      omega
    rw [phys, hdown, hw]
    dsimp only
    rw [hmod, Ram.sub_pgrounddown, Nat.add_assoc]

theorem phys_inj (hp : UserPages t) {va' pa : Nat} (h : phys t va = some pa) (h' : phys t va' = some pa) : va = va' := by
  unfold phys at h h'
  cases hw : Mem.walkaddr t (PGROUNDDOWN va) with
  | none =>
    rw [hw] at h
    cases h
  | some page =>
    cases hw' : Mem.walkaddr t (PGROUNDDOWN va') with
    | none =>
      rw [hw'] at h'
      cases h'
    | some page' =>
      rw [hw, Option.some.injEq] at h
      rw [hw', Option.some.injEq] at h'
      have hm : va % PGSIZE < PGSIZE := Nat.mod_lt _ (by decide)
      have hm' : va' % PGSIZE < PGSIZE := Nat.mod_lt _ (by decide)
      obtain ⟨hlt, e, he, hu, hpage⟩ := Ram.walkaddr_eq_some.1 hw
      obtain ⟨hlt', e', he', hu', hpage'⟩ := Ram.walkaddr_eq_some.1 hw'
      have hsame : @Eq Nat page page' := by
        simp only [PGSIZE] at h h' hm hm'
        omega
      have hdiv := hp.distinct _ (Ram.page_lt hlt) _ (Ram.page_lt hlt') e e' he he' hu hu' (by rw [hpage, hpage', hsame])
      subst hsame
      simp only [PGSIZE] at h h' hdiv
      omega

/-- The next page begins where the chunk ends, if there is more to move. -/
theorem next_page {va len n : Nat} (hlt : va < MAXVA) (hn : n = min (PGSIZE - (va - PGROUNDDOWN va)) len) (hmore : n ≠ len) :
    (PGROUNDDOWN va + PGSIZE) % 2 ^ 64 = va + n := by
  simp only [PGROUNDDOWN, PGSIZE, MAXVA] at hlt hn ⊢
  omega

theorem chunk_le {va len n : Nat} (hn : n = min (PGSIZE - (va - PGROUNDDOWN va)) len) :
    va % PGSIZE + n ≤ PGSIZE ∧ n ≤ len ∧ (0 < len → 0 < n) := by
  have hm : va % PGSIZE < PGSIZE := Nat.mod_lt _ (by decide)
  rw [Ram.sub_pgrounddown] at hn
  omega

/-! ### `copyout` -/

/-- The first `j` bytes of the range have been moved: all of them, or those before the first bad byte. -/
structure Upto (t : PageTable) (va len : Nat) (ok : Bool) (j : Nat) : Prop where
  le : j ≤ len
  good : ∀ k < j, t.UserAt (va + k)
  bad : j < len → ¬t.UserAt (va + j)
  ok : ok = true ↔ j = len

theorem Upto.zero_len : Upto t va 0 true 0 := ⟨Nat.le_refl 0, by simp, by simp, by simp⟩

theorem Upto.stop {len : Nat} (hlen : len ≠ 0) (h : phys t va = none) : Upto t va len false 0 := by
  refine ⟨Nat.zero_le _, by simp, fun _ hu => ?_, by simp [Ne.symm hlen]⟩
  obtain ⟨pa, hpa⟩ := userAt_iff.1 hu
  rw [Nat.add_zero, h] at hpa
  cases hpa

/-- A chunk, and what comes after it. -/
theorem Upto.chunk {len n j : Nat} {ok : Bool} (hle : n ≤ len) (hgood : ∀ k < n, t.UserAt (va + k))
    (h : Upto t (va + n) (len - n) ok j) : Upto t va len ok (n + j) := by
  obtain ⟨h1, h2, h3, h4⟩ := h
  refine ⟨by omega, fun k hk => ?_, fun hlt => ?_, h4.trans ⟨by omega, by omega⟩⟩
  · by_cases hkn : k < n
    · exact hgood k hkn
    · have := h2 (k - n) (by omega)
      rwa [show va + n + (k - n) = va + k by omega] at this
  · rw [← Nat.add_assoc]
    exact h3 (by omega)

theorem Upto.unique_len {len j : Nat} {ok : Bool} (h : Upto t va len ok j) : ok = true ↔ ∀ k < len, t.UserAt (va + k) := by
  rw [h.ok]
  constructor
  · rintro rfl
    exact h.good
  · intro hall
    by_contra hne
    have hlt : j < len := Nat.lt_of_le_of_ne h.le hne
    exact h.bad hlt (hall j hlt)

/-- `m'` is `m` with the first `j` bytes at `src` moved to the user's range. -/
structure MovedOut (t : PageTable) (va src j : Nat) (m m' : Bytes) : Prop where
  moved : ∀ k < j, ∀ pa, phys t (va + k) = some pa → m' pa = m (src + k)
  frame : ∀ a, (∀ k < j, phys t (va + k) ≠ some a) → m' a = m a

theorem MovedOut.zero (t : PageTable) (va src : Nat) (m : Bytes) : MovedOut t va src 0 m m := ⟨by simp, fun _ _ => rfl⟩

/-- One chunk. -/
theorem memmove_out {va src n pa : Nat} {m : Bytes} (hphys : ∀ k < n, phys t (va + k) = some (pa + k)) :
    MovedOut t va src n m (memmove m pa src n) := by
  refine ⟨fun k hk q hq => ?_, fun a ha => ?_⟩
  · rw [hphys k hk, Option.some.injEq] at hq
    subst hq
    rw [memmove, if_pos ⟨Nat.le_add_right _ _, by omega⟩, Nat.add_sub_cancel_left]
  · refine if_neg fun hin => ?_
    have := ha (a - pa) (by omega)
    rw [hphys _ (by omega), show pa + (a - pa) = a by omega] at this
    exact this rfl

theorem MovedOut.append (hp : UserPages t) {va src n j len : Nat} {m m₁ m' : Bytes} (hout : Outside t src len) (hle : n + j ≤ len)
    (h₁ : MovedOut t va src n m m₁) (h₂ : MovedOut t (va + n) (src + n) j m₁ m') : MovedOut t va src (n + j) m m' := by
  refine ⟨fun k hk pa hpa => ?_, fun a ha => ?_⟩
  · by_cases hkn : k < n
    · rw [h₂.frame pa, h₁.moved k hkn pa hpa]
      intro i _ hi
      have := phys_inj hp hpa hi
      omega
    · have hpa' : phys t (va + n + (k - n)) = some pa := by rwa [show va + n + (k - n) = va + k by omega]
      rw [h₂.moved (k - n) (by omega) pa hpa', show src + n + (k - n) = src + k by omega, h₁.frame]
      intro i _ hi
      have := hout _ _ hi
      omega
  · rw [h₂.frame a, h₁.frame a fun k hk => ha k (by omega)]
    intro k hk
    rw [Nat.add_assoc]
    exact ha (n + k) (by omega)

theorem copyoutLoop_spec (hp : UserPages t) {fuel dstva src len : Nat} (hf : len ≤ fuel) (hva : dstva < 2 ^ 64)
    (hout : Outside t src len) (m : Bytes) : ∃ j, Upto t dstva len (copyoutLoop t fuel dstva src len m).1 j ∧
      MovedOut t dstva src j m (copyoutLoop t fuel dstva src len m).2 := by
  induction fuel generalizing dstva src len m with
  | zero =>
    obtain rfl := Nat.le_zero.1 hf
    exact ⟨0, .zero_len, .zero ..⟩
  | succ fuel ih =>
    unfold copyoutLoop
    by_cases hlen : len = 0
    · subst hlen
      rw [if_pos rfl]
      exact ⟨0, .zero_len, .zero ..⟩
    · rw [if_neg hlen]
      dsimp only
      rcases walkaddr_spec hp dstva with ⟨hw, hnone⟩ | ⟨hw, hlt, hphys⟩
      · rw [if_pos hw]
        exact ⟨0, .stop hlen hnone, .zero ..⟩
      · rw [if_neg hw]
        set n := min (PGSIZE - (dstva - PGROUNDDOWN dstva)) len with hn
        obtain ⟨hpage, hle, hpos⟩ := chunk_le hn
        have hchunk : ∀ k < n, phys t (dstva + k) = some (walkaddr t (PGROUNDDOWN dstva) + (dstva - PGROUNDDOWN dstva) + k) :=
          fun k hk => hphys k (by omega)
        have hgood : ∀ k < n, t.UserAt (dstva + k) := fun k hk => userAt_iff.2 ⟨_, hchunk k hk⟩
        have hfirst : MovedOut t dstva src n m _ := memmove_out hchunk
        by_cases hend : n = len
        · have hstop : ∀ m', copyoutLoop t fuel ((PGROUNDDOWN dstva + PGSIZE) % 2 ^ 64) (src + n) (len - n) m' = (true, m') := by
            intro m'
            rw [← hend, Nat.sub_self]
            cases fuel <;> rfl
          rw [hstop]
          refine ⟨n, ⟨hle, hgood, fun h => absurd hend (Nat.ne_of_lt h), by simp [hend]⟩, hfirst⟩
        · rw [next_page hlt hn hend]
          have hva' : dstva + n < 2 ^ 64 := by
            have : PGSIZE ≤ MAXVA := by decide
            have : MAXVA + MAXVA < 2 ^ 64 := by decide
            omega
          have hout' : Outside t (src + n) (len - n) := fun va pa h => by
            have := hout va pa h
            omega
          obtain ⟨j, hj, hmoved⟩ := ih (by have := hpos (by omega); omega) hva' hout'
            (memmove m (walkaddr t (PGROUNDDOWN dstva) + (dstva - PGROUNDDOWN dstva)) src n)
          exact ⟨n + j, hj.chunk hle hgood, hfirst.append hp hout (by have := hj.le; omega) hmoved⟩

/-! ### `copyin` -/

/-- `m'` is `m` with the first `j` bytes of the user's range moved to `dst`. -/
structure MovedIn (t : PageTable) (dst va j : Nat) (m m' : Bytes) : Prop where
  moved : ∀ k < j, ∀ pa, phys t (va + k) = some pa → m' (dst + k) = m pa
  frame : ∀ a, a < dst ∨ dst + j ≤ a → m' a = m a

theorem MovedIn.zero (t : PageTable) (dst va : Nat) (m : Bytes) : MovedIn t dst va 0 m m := ⟨by simp, fun _ _ => rfl⟩

theorem memmove_in {dst va n pa : Nat} {m : Bytes} (hphys : ∀ k < n, phys t (va + k) = some (pa + k)) :
    MovedIn t dst va n m (memmove m dst pa n) := by
  refine ⟨fun k hk q hq => ?_, fun a ha => if_neg (by omega)⟩
  rw [hphys k hk, Option.some.injEq] at hq
  rw [memmove, if_pos ⟨Nat.le_add_right _ _, by omega⟩, Nat.add_sub_cancel_left, hq]

theorem MovedIn.append {dst va n j len : Nat} {m m₁ m' : Bytes} (hout : Outside t dst len) (hle : n + j ≤ len)
    (h₁ : MovedIn t dst va n m m₁) (h₂ : MovedIn t (dst + n) (va + n) j m₁ m') : MovedIn t dst va (n + j) m m' := by
  refine ⟨fun k hk pa hpa => ?_, fun a ha => ?_⟩
  · by_cases hkn : k < n
    · rw [h₂.frame _ (.inl (by omega)), h₁.moved k hkn pa hpa]
    · have hpa' : phys t (va + n + (k - n)) = some pa := by rwa [show va + n + (k - n) = va + k by omega]
      have hfar := hout _ _ hpa
      have := h₂.moved (k - n) (by omega) pa hpa'
      rw [show dst + n + (k - n) = dst + k by omega] at this
      rw [this, h₁.frame pa (by omega)]
  · rw [h₂.frame a (by omega), h₁.frame a (by omega)]

theorem copyinLoop_spec (hp : UserPages t) {fuel dst srcva len : Nat} (hf : len ≤ fuel) (hva : srcva < 2 ^ 64)
    (hout : Outside t dst len) (m : Bytes) : ∃ j, Upto t srcva len (copyinLoop t fuel dst srcva len m).1 j ∧
      MovedIn t dst srcva j m (copyinLoop t fuel dst srcva len m).2 := by
  induction fuel generalizing dst srcva len m with
  | zero =>
    obtain rfl := Nat.le_zero.1 hf
    exact ⟨0, .zero_len, .zero ..⟩
  | succ fuel ih =>
    unfold copyinLoop
    by_cases hlen : len = 0
    · subst hlen
      rw [if_pos rfl]
      exact ⟨0, .zero_len, .zero ..⟩
    · rw [if_neg hlen]
      dsimp only
      rcases walkaddr_spec hp srcva with ⟨hw, hnone⟩ | ⟨hw, hlt, hphys⟩
      · rw [if_pos hw]
        exact ⟨0, .stop hlen hnone, .zero ..⟩
      · rw [if_neg hw]
        set n := min (PGSIZE - (srcva - PGROUNDDOWN srcva)) len with hn
        obtain ⟨hpage, hle, hpos⟩ := chunk_le hn
        have hchunk : ∀ k < n, phys t (srcva + k) = some (walkaddr t (PGROUNDDOWN srcva) + (srcva - PGROUNDDOWN srcva) + k) :=
          fun k hk => hphys k (by omega)
        have hgood : ∀ k < n, t.UserAt (srcva + k) := fun k hk => userAt_iff.2 ⟨_, hchunk k hk⟩
        have hfirst : MovedIn t dst srcva n m _ := memmove_in hchunk
        by_cases hend : n = len
        · have hstop : ∀ m', copyinLoop t fuel (dst + n) ((PGROUNDDOWN srcva + PGSIZE) % 2 ^ 64) (len - n) m' = (true, m') := by
            intro m'
            rw [← hend, Nat.sub_self]
            cases fuel <;> rfl
          rw [hstop]
          refine ⟨n, ⟨hle, hgood, fun h => absurd hend (Nat.ne_of_lt h), by simp [hend]⟩, hfirst⟩
        · rw [next_page hlt hn hend]
          have hva' : srcva + n < 2 ^ 64 := by
            have : PGSIZE ≤ MAXVA := by decide
            have : MAXVA + MAXVA < 2 ^ 64 := by decide
            omega
          have hout' : Outside t (dst + n) (len - n) := fun va pa h => by
            have := hout va pa h
            omega
          obtain ⟨j, hj, hmoved⟩ := ih (by have := hpos (by omega); omega) hva' hout'
            (memmove m dst (walkaddr t (PGROUNDDOWN srcva) + (srcva - PGROUNDDOWN srcva)) n)
          exact ⟨n + j, hj.chunk hle hgood, hfirst.append hout (by have := hj.le; omega) hmoved⟩

/-! ### `copyinstr` -/

/-- `copyinstr` has moved `j` bytes: a string with its null, or bytes that are not null up to `max` or to the first bad byte. -/
structure StrUpto (t : PageTable) (va max : Nat) (m : Bytes) (ok : Bool) (j : Nat) : Prop where
  le : j ≤ max
  good : ∀ k < j, t.UserAt (va + k)
  body : ∀ k, k + 1 < j ∨ k < j ∧ ok = false → ∀ pa, phys t (va + k) = some pa → m pa ≠ 0
  null : ok = true → ∃ k pa, j = k + 1 ∧ phys t (va + k) = some pa ∧ m pa = 0
  stop : ok = false → j = max ∨ ¬t.UserAt (va + j)

theorem StrUpto.nothing (t : PageTable) (va : Nat) (m : Bytes) : StrUpto t va 0 m false 0 :=
  ⟨Nat.le_refl 0, by simp, by simp, by simp, fun _ => .inl rfl⟩

/-- The answer is a fact about the user's memory. -/
theorem StrUpto.ok_iff {max j : Nat} {m : Bytes} {ok : Bool} (h : StrUpto t va max m ok j) :
    ok = true ↔ ∃ k < max, (∀ i ≤ k, t.UserAt (va + i)) ∧ ∃ pa, phys t (va + k) = some pa ∧ m pa = 0 := by
  constructor
  · intro hok
    obtain ⟨k, pa, rfl, hpa, hnull⟩ := h.null hok
    exact ⟨k, h.le, fun i hi => h.good i (Nat.lt_succ_of_le hi), pa, hpa, hnull⟩
  · rintro ⟨k, hk, hgood, pa, hpa, hnull⟩
    by_contra hok
    rw [Bool.not_eq_true] at hok
    by_cases hkj : k < j
    · exact h.body k (.inr ⟨hkj, hok⟩) pa hpa hnull
    · rcases h.stop hok with rfl | hbad
      · exact hkj hk
      · exact hbad (hgood j (Nat.not_lt.1 hkj))

/-- A chunk without a null, and what comes after it. -/
theorem StrUpto.chunk {max n j : Nat} {m m₁ : Bytes} {ok : Bool} (hle : n ≤ max) (hgood : ∀ k < n, t.UserAt (va + k))
    (hbody : ∀ k < n, ∀ pa, phys t (va + k) = some pa → m pa ≠ 0) (hsame : ∀ v pa, phys t v = some pa → m₁ pa = m pa)
    (h : StrUpto t (va + n) (max - n) m₁ ok j) : StrUpto t va max m ok (n + j) := by
  obtain ⟨h1, h2, h3, h4, h5⟩ := h
  have hshift : ∀ k, n ≤ k → va + n + (k - n) = va + k := fun k hk => by omega
  refine ⟨by omega, fun k hk => ?_, fun k hk pa hpa => ?_, fun hok => ?_, fun hok => ?_⟩
  · by_cases hkn : k < n
    · exact hgood k hkn
    · have := h2 (k - n) (by omega)
      rwa [hshift k (by omega)] at this
  · by_cases hkn : k < n
    · exact hbody k hkn pa hpa
    · rw [← hsame _ _ hpa]
      refine h3 (k - n) ?_ pa ?_
      · rcases hk with hk | ⟨hk, hok⟩
        · exact .inl (by omega)
        · exact .inr ⟨by omega, hok⟩
      · rwa [hshift k (by omega)]
  · obtain ⟨k, pa, rfl, hpa, hnull⟩ := h4 hok
    refine ⟨n + k, pa, rfl, ?_, ?_⟩
    · rwa [← Nat.add_assoc]
    · rw [← hsame _ _ hpa, hnull]
  · rw [← Nat.add_assoc]
    rcases h5 hok with h5 | h5
    · exact .inl (by omega)
    · exact .inr h5

theorem copyinstrPage_spec (max : Nat) {n p dst va len : Nat} (hphys : ∀ k < n, phys t (va + k) = some (p + k)) (hlen : n ≤ len)
    (hout : Outside t dst len) (m : Bytes) :
    (∃ m', copyinstrPage n p dst max m = (false, max - n, dst + n, m') ∧ MovedIn t dst va n m m' ∧ ∀ k < n, m (p + k) ≠ 0) ∨
    ∃ k < n, ∃ max' dst' m', copyinstrPage n p dst max m = (true, max', dst', m') ∧ MovedIn t dst va (k + 1) m m' ∧ m (p + k) = 0 ∧
      ∀ i < k, m (p + i) ≠ 0 := by
  induction n generalizing p dst va max len m with
  | zero => exact .inl ⟨m, rfl, .zero .., by simp⟩
  | succ n ih =>
    have hfirst : ∀ m', m' = update m dst (m p) → MovedIn t dst va 1 m m' := by
      rintro _ rfl
      refine ⟨fun k hk pa hpa => ?_, fun a ha => Function.update_of_ne (by omega) ..⟩
      obtain rfl : k = 0 := by omega
      rw [hphys 0 (by omega), Option.some.injEq] at hpa
      rw [← hpa, Nat.add_zero, Function.update_self, Nat.add_zero]
    unfold copyinstrPage
    by_cases hnull : m p = 0
    · rw [if_pos hnull]
      exact .inr ⟨0, Nat.succ_pos n, _, _, _, rfl, hfirst _ (by rw [hnull]), hnull, by simp⟩
    · rw [if_neg hnull]
      have hphys' : ∀ k < n, phys t (va + 1 + k) = some (p + 1 + k) := fun k hk => by
        have := hphys (k + 1) (by omega)
        rwa [show va + 1 + k = va + (k + 1) by omega, show p + 1 + k = p + (k + 1) by omega]
      have hout' : Outside t (dst + 1) (len - 1) := fun v pa h => by
        have := hout v pa h
        omega
      -- what is read later has not been written
      have hsame : ∀ k < n, update m dst (m p) (p + 1 + k) = m (p + 1 + k) := fun k hk => by
        have := hout _ _ (hphys' k hk)
        exact Function.update_of_ne (by omega) ..
      rcases ih (max - 1) hphys' (show n ≤ len - 1 by omega) hout' (update m dst (m p)) with
        ⟨m', heq, hmoved, hbody⟩ | ⟨k, hk, max', dst', m', heq, hmoved, hzero, hbody⟩
      · refine .inl ⟨m', ?_, ?_, fun k hk => ?_⟩
        · rw [heq, Nat.sub_sub, Nat.add_comm 1 n, Nat.add_assoc, Nat.add_comm 1 n]
        · have := (hfirst _ rfl).append hout (j := n) (by omega) hmoved
          rwa [Nat.add_comm] at this
        · cases k with
          | zero => exact hnull
          | succ k =>
            have := hbody k (by omega)
            rwa [hsame k (by omega), show p + 1 + k = p + (k + 1) by omega] at this
      · refine .inr ⟨k + 1, by omega, max', dst', m', heq, ?_, ?_, fun i hi => ?_⟩
        · have := (hfirst _ rfl).append hout (j := k + 1) (by omega) hmoved
          rwa [Nat.add_comm 1] at this
        · rwa [hsame k hk, show p + 1 + k = p + (k + 1) by omega] at hzero
        · cases i with
          | zero => exact hnull
          | succ i =>
            have := hbody i (by omega)
            rwa [hsame i (by omega), show p + 1 + i = p + (i + 1) by omega] at this

theorem copyinstrLoop_spec (hp : UserPages t) {fuel dst srcva max : Nat} (hf : max ≤ fuel) (hva : srcva < 2 ^ 64)
    (hout : Outside t dst max) (m : Bytes) : ∃ j, StrUpto t srcva max m (copyinstrLoop t fuel false dst srcva max m).1 j ∧
      MovedIn t dst srcva j m (copyinstrLoop t fuel false dst srcva max m).2 := by
  induction fuel generalizing dst srcva max m with
  | zero =>
    obtain rfl := Nat.le_zero.1 hf
    exact ⟨0, .nothing .., .zero ..⟩
  | succ fuel ih =>
    unfold copyinstrLoop
    by_cases hmax : max > 0
    · rw [if_pos ⟨rfl, hmax⟩]
      dsimp only
      rcases walkaddr_spec hp srcva with ⟨hw, hnone⟩ | ⟨hw, hlt, hphys⟩
      · rw [if_pos hw]
        refine ⟨0, ⟨Nat.zero_le _, by simp, by simp, by simp, fun _ => .inr fun hu => ?_⟩, .zero ..⟩
        obtain ⟨pa, hpa⟩ := userAt_iff.1 hu
        rw [Nat.add_zero, hnone] at hpa
        cases hpa
      · rw [if_neg hw]
        set n := min (PGSIZE - (srcva - PGROUNDDOWN srcva)) max with hn
        obtain ⟨hpage, hle, hpos⟩ := chunk_le hn
        have hchunk : ∀ k < n, phys t (srcva + k) = some (walkaddr t (PGROUNDDOWN srcva) + (srcva - PGROUNDDOWN srcva) + k) :=
          fun k hk => hphys k (by omega)
        have hgood : ∀ k < n, t.UserAt (srcva + k) := fun k hk => userAt_iff.2 ⟨_, hchunk k hk⟩
        rcases copyinstrPage_spec max hchunk hle hout m with
          ⟨m', heq, hmoved, hbody⟩ | ⟨k, hk, max', dst', m', heq, hmoved, hzero, hbody⟩
        · rw [heq]
          dsimp only
          have hbody' : ∀ k < n, ∀ pa, phys t (srcva + k) = some pa → m pa ≠ 0 := fun k hk pa hpa => by
            rw [hchunk k hk, Option.some.injEq] at hpa
            rw [← hpa]
            exact hbody k hk
          have hsame : ∀ v pa, phys t v = some pa → m' pa = m pa := fun v pa h => by
            have := hout v pa h
            exact hmoved.frame pa (by omega)
          by_cases hend : n = max
          · have hstop : copyinstrLoop t fuel false (dst + n) ((PGROUNDDOWN srcva + PGSIZE) % 2 ^ 64) (max - n) m' = (false, m') := by
              rw [← hend, Nat.sub_self]
              cases fuel <;> rfl
            rw [hstop]
            refine ⟨n, ⟨hle, hgood, fun k hk => hbody' k (by omega), by simp, fun _ => .inl hend⟩, hmoved⟩
          · rw [next_page hlt hn hend]
            have hva' : srcva + n < 2 ^ 64 := by
              have : PGSIZE ≤ MAXVA := by decide
              have : MAXVA + MAXVA < 2 ^ 64 := by decide
              omega
            have hout' : Outside t (dst + n) (max - n) := fun v pa h => by
              have := hout v pa h
              omega
            obtain ⟨j, hj, hmoved'⟩ := ih (by have := hpos hmax; omega) hva' hout' m'
            exact ⟨n + j, hj.chunk hle hgood hbody' hsame, hmoved.append hout (by have := hj.le; omega) hmoved'⟩
        · rw [heq]
          dsimp only
          have hstop : copyinstrLoop t fuel true dst' ((PGROUNDDOWN srcva + PGSIZE) % 2 ^ 64) max' m' = (true, m') := by
            cases fuel <;> rfl
          rw [hstop]
          refine ⟨k + 1, ⟨by omega, fun i hi => hgood i (by omega), fun i hi pa hpa => ?_, fun _ => ⟨k, _, rfl, hchunk k hk, hzero⟩,
            by simp⟩, hmoved⟩
          have hik : i < k := by simpa using hi
          rw [hchunk i (by omega), Option.some.injEq] at hpa
          rw [← hpa]
          exact hbody i hik
    · obtain rfl : max = 0 := by omega
      rw [if_neg (by simp)]
      exact ⟨0, .nothing .., .zero ..⟩

/-! ### The three functions -/

/-- What `copyout`, `copyin` and `copyinstr` do, for every address and length and every kernel buffer outside of the user's pages. -/
theorem copies_bytes (hp : UserPages t) (va : UInt64) (buf len : Nat) (hout : Outside t buf len) (m : Bytes) :
    (((copyout t va.toNat buf len m).1 = true ↔ ∀ k < len, t.UserAt (va.toNat + k)) ∧
      ∃ j, Upto t va.toNat len (copyout t va.toNat buf len m).1 j ∧ MovedOut t va.toNat buf j m (copyout t va.toNat buf len m).2) ∧
    (((copyin t buf va.toNat len m).1 = true ↔ ∀ k < len, t.UserAt (va.toNat + k)) ∧
      ∃ j, Upto t va.toNat len (copyin t buf va.toNat len m).1 j ∧ MovedIn t buf va.toNat j m (copyin t buf va.toNat len m).2) ∧
    ((copyinstr t buf va.toNat len m).1 = true ↔
        ∃ k < len, (∀ i ≤ k, t.UserAt (va.toNat + i)) ∧ ∃ pa, phys t (va.toNat + k) = some pa ∧ m pa = 0) ∧
      ∃ j, StrUpto t va.toNat len m (copyinstr t buf va.toNat len m).1 j ∧
        MovedIn t buf va.toNat j m (copyinstr t buf va.toNat len m).2 := by
  obtain ⟨j, hj, hmoved⟩ := copyoutLoop_spec hp (Nat.le_refl len) va.toNat_lt hout m
  obtain ⟨j', hj', hmoved'⟩ := copyinLoop_spec hp (Nat.le_refl len) va.toNat_lt hout m
  obtain ⟨j'', hj'', hmoved''⟩ := copyinstrLoop_spec hp (Nat.le_refl len) va.toNat_lt hout m
  exact ⟨⟨hj.unique_len, j, hj, hmoved⟩, ⟨hj'.unique_len, j', hj', hmoved'⟩, hj''.ok_iff, j'', hj'', hmoved''⟩

/-- A tree that has the entry of address 0, and nothing mapped. -/
def bareTree : PageTable := (PtPage.empty 1).set 0 (some ((PtPage.empty 2).set 0 (some (PtPage.empty 3))))

/-- The user has page 5 at 0, and nothing else. -/
def onePage : PageTable := bareTree.setPte 0 (some ⟨5, ⟨true, true, false, true⟩⟩)

theorem get_onePage {i : Nat} (hi : i < 2 ^ 27) {e : Pte} (h : onePage.get i = some e) : i = 0 ∧ e.page = 5 := by
  have hbare : bareTree.get i = none := by
    have hlook : bareTree.look (i * PGSIZE) = PageTable.look (.empty 1) (i * PGSIZE) :=
      PageTable.look_set (fun va => PageTable.lookIn_set (fun _ => rfl) va) _
    rw [PageTable.get, hlook]
    rfl
  rw [onePage, ← Nat.zero_mul PGSIZE, PageTable.get_setPte (c := none) (by decide) rfl _ hi, hbare] at h
  split at h
  · rw [Option.some.injEq] at h
    exact ⟨‹_›, by rw [← h]⟩
  · cases h

theorem userPages_onePage : UserPages onePage := by
  constructor
  · intro i hi j hj e e' he he' _ _ _
    rw [(get_onePage hi he).1, (get_onePage hj he').1]
  · intro i hi e he _ hzero
    have hfive := (get_onePage hi he).2
    rw [hzero] at hfive
    cases hfive

/-- A string that ends in the page, from its last byte but one. -/
theorem copies_bytes_onePage :
    (∃ k < 7, (∀ i ≤ k, onePage.UserAt (4094 + i)) ∧ ∃ pa, phys onePage (4094 + k) = some pa ∧ (if pa = 24575 then 0 else 1) = (0 : UInt8)) ∧
      (copyinstr onePage 100 4094 7 fun pa => if pa = 24575 then 0 else 1).1 = true := by
  have hout : Outside onePage 100 7 := by
    intro va pa h
    rw [phys] at h
    cases hw : Mem.walkaddr onePage (PGROUNDDOWN va) with
    | none =>
      rw [hw] at h
      cases h
    | some page =>
      obtain ⟨hlt, e, he, -, hpage⟩ := Ram.walkaddr_eq_some.1 hw
      have hfive := (get_onePage (Ram.page_lt hlt) he).2
      rw [hw, ← hpage, hfive, Option.some.injEq, PGSIZE] at h
      omega
  have hiff := (copies_bytes userPages_onePage 4094 100 7 hout fun pa => if pa = 24575 then 0 else 1).2.2.1
  have htrue : (copyinstr onePage 100 4094 7 fun pa => if pa = 24575 then 0 else 1).1 = true := by decide +kernel
  exact ⟨hiff.1 htrue, htrue⟩

end CopyBytes

end Xv6
