import Xv6.Sh

/-!
# The tokens of a command line

`toks` is the list of the tokens that repeated calls of `gettoken` find.  They are the ones that the line is cut into when every word
is as long as it can be (`lexes_iff`).
-/

namespace Xv6

namespace Sh

/-- A word, or another token under the answer that `gettoken` gives for it. -/
inductive Tok (W : Type)
  | word (w : W)
  | sym (c : UInt8)
  deriving DecidableEq

namespace Tok

variable {V W : Type}

def map (f : V → W) : Tok V → Tok W
  | word w => word (f w)
  | sym c => sym c

/-- The token for an answer of `gettoken`. -/
def of (ret : UInt8) (w : W) : Tok W := if ret = 'a'.toUInt8 then word w else sym ret

/-- The first byte of the token is one of these, none of which is one of a word. -/
def starts (toks : List UInt8) : Tok W → Bool
  | word _ => false
  | sym c => (if c = '+'.toUInt8 then '>'.toUInt8 else c) ∈ toks

@[simp] theorem starts_map (f : V → W) (toks : List UInt8) (t : Tok V) : (t.map f).starts toks = t.starts toks := by
  cases t <;> rfl

@[simp] theorem map_of (f : V → W) (ret : UInt8) (w : V) : (of ret w).map f = of ret (f w) := by
  unfold of
  split <;> rfl

end Tok

/-! ### Blanks -/

theorem skip_cons {c : UInt8} {s r : Ptr} (h : skip s = c :: r) : c ∉ whitespace := by
  have hc := List.head?_dropWhile_not (· ∈ whitespace) s
  unfold skip at h
  simp only [h, List.head?_cons, decide_eq_false_iff_not] at hc
  exact hc

theorem skip_eq_self {c : UInt8} {s : Ptr} (h : c ∉ whitespace) : skip (c :: s) = c :: s := by
  unfold skip
  exact List.dropWhile_cons_of_neg (by simpa using h)

theorem skip_ne_nil {c : UInt8} {s : Ptr} (h : c ∉ whitespace) : skip (c :: s) ≠ [] := by
  rw [skip_eq_self h]
  exact List.cons_ne_nil _ _

theorem skip_blank {c : UInt8} {s : Ptr} (h : c ∈ whitespace) : skip (c :: s) = skip s := by
  unfold skip
  exact List.dropWhile_cons_of_pos (by simpa using h)

@[simp] theorem skip_skip (s : Ptr) : skip (skip s) = skip s := by
  cases h : skip s with
  | nil => rfl
  | cons c r => exact skip_eq_self (skip_cons h)

theorem skip_suffix (s : Ptr) : skip s <:+ s := by
  unfold skip
  exact List.dropWhile_suffix _

@[simp] theorem gettoken_skip (s : Ptr) : gettoken (skip s) = gettoken s := by
  unfold gettoken
  rw [skip_skip]

/-! ### What `gettoken` finds -/

/-- What `gettoken` finds at the first byte that is not a blank. -/
inductive Found (c : UInt8) (s : Ptr) : UInt8 × Span × Ptr → Prop
  | append (s' : Ptr) (hc : c = '>'.toUInt8) (hs : s = '>'.toUInt8 :: s') : Found c s ('+'.toUInt8, ⟨c :: s, s'⟩, skip s')
  | single (hc : c ∈ symbols) (hs : c = '>'.toUInt8 → s.head? ≠ some '>'.toUInt8) : Found c s (c, ⟨c :: s, s⟩, skip s)
  | word (hc : inWord c = true) :
      Found c s ('a'.toUInt8, ⟨c :: s, s.dropWhile inWord⟩, skip (s.dropWhile inWord))

theorem gettoken_nil {s : Ptr} (h : skip s = []) : gettoken s = (0, ⟨[], []⟩, []) := by
  unfold gettoken
  rw [h]

theorem gettoken_found {c : UInt8} {s r : Ptr} (h : skip s = c :: r) : Found c r (gettoken s) := by
  have hblank := skip_cons h
  unfold gettoken
  rw [h]
  by_cases hgt : c = '>'.toUInt8
  · have hsym : c ∈ symbols := by rw [hgt]; decide
    cases r with
    | nil =>
      simp only [if_pos hgt]
      exact .single hsym (by simp)
    | cons d r' =>
      simp only [if_pos hgt]
      by_cases hd : d = '>'.toUInt8
      · rw [if_pos hd]
        exact .append r' hgt (by rw [hd])
      · rw [if_neg hd]
        exact .single hsym (fun _ => by simpa using hd)
  · by_cases hsym : c ∈ symbols
    · simp only [if_neg hgt, if_pos hsym]
      exact .single hsym (fun he => absurd he hgt)
    · have hw : inWord c = true := by simp [inWord, hblank, hsym]
      simp only [if_neg hgt, if_neg hsym, List.dropWhile_cons_of_pos hw]
      exact .word hw

/-- The token starts where the blanks end and has at least one byte, and the blanks after it are skipped. -/
theorem Found.span {c : UInt8} {s : Ptr} {x : UInt8 × Span × Ptr} (h : Found c s x) :
    x.1 ≠ 0 ∧ x.2.1.q = c :: s ∧ x.2.1.eq <:+ s ∧ x.2.2 = skip x.2.1.eq := by
  cases h with
  | append s' hc hs =>
    refine ⟨show '+'.toUInt8 ≠ 0 by decide, rfl, ?_, rfl⟩
    rw [hs]
    exact List.suffix_cons ..
  | single hc hs =>
    refine ⟨fun h0 => ?_, rfl, List.suffix_rfl, rfl⟩
    rw [show c = 0 from h0] at hc
    exact absurd hc (by decide)
  | word hc => exact ⟨show 'a'.toUInt8 ≠ 0 by decide, rfl, List.dropWhile_suffix _, rfl⟩

theorem gettoken_length {s : Ptr} (h : skip s ≠ []) : (gettoken s).2.2.length < s.length := by
  obtain ⟨c, r, hs⟩ := List.exists_cons_of_ne_nil h
  obtain ⟨-, -, heq, hrest⟩ := (gettoken_found hs).span
  have h1 := (skip_suffix s).length_le
  have h2 := heq.length_le
  have h3 := (skip_suffix (gettoken s).2.1.eq).length_le
  rw [hs, List.length_cons] at h1
  rw [hrest]
  omega

/-- The tokens of the rest of the line, as `gettoken` cuts it. -/
def toks (s : Ptr) : List (Tok Span) :=
  if h : skip s = [] then []
  else
    have := gettoken_length h
    .of (gettoken s).1 (gettoken s).2.1 :: toks (gettoken s).2.2
termination_by s.length

theorem toks_nil {s : Ptr} (h : skip s = []) : toks s = [] := by
  rw [toks, dif_pos h]

theorem toks_cons {s : Ptr} (h : skip s ≠ []) : toks s = .of (gettoken s).1 (gettoken s).2.1 :: toks (gettoken s).2.2 := by
  rw [toks, dif_neg h]

@[simp] theorem toks_skip (s : Ptr) : toks (skip s) = toks s := by
  by_cases h : skip s = []
  · rw [toks_nil h, toks_nil (by rw [skip_skip, h])]
  · rw [toks_cons h, toks_cons (by rwa [skip_skip]), gettoken_skip]

theorem length_toks (s : Ptr) : (toks s).length ≤ s.length := by
  induction s using toks.induct with
  | case1 s h => simp [toks_nil h]
  | case2 s h hlt ih =>
    rw [toks_cons h, List.length_cons]
    omega

/-! ### The text of the tokens -/

section txt

variable {W : Type} (f : Span → W)

/-- The tokens, each word as `f` reads it. -/
def txt (s : Ptr) : List (Tok W) := (toks s).map (Tok.map f)

@[simp] theorem txt_skip (s : Ptr) : txt f (skip s) = txt f s := by
  unfold txt
  rw [toks_skip]

theorem length_txt (s : Ptr) : (txt f s).length ≤ s.length := by
  unfold txt
  rw [List.length_map]
  exact length_toks s

theorem txt_nil {s : Ptr} (h : skip s = []) : txt f s = [] := by
  unfold txt
  rw [toks_nil h, List.map_nil]

theorem txt_cons {s : Ptr} (h : skip s ≠ []) : txt f s = .of (gettoken s).1 (f (gettoken s).2.1) :: txt f (gettoken s).2.2 := by
  unfold txt
  rw [toks_cons h, List.map_cons, Tok.map_of]

variable {f} {s : Ptr} {r : List (Tok W)}

theorem skip_of_txt (h : txt f s = []) : skip s = [] := by
  by_contra hs
  rw [txt_cons f hs] at h
  cases h

/-- `gettoken` takes the first token: a word, .. -/
theorem gettoken_of_word {w : W} (h : txt f s = .word w :: r) :
    (gettoken s).1 = 'a'.toUInt8 ∧ f (gettoken s).2.1 = w ∧ txt f (gettoken s).2.2 = r := by
  by_cases hs : skip s = []
  · rw [txt_nil f hs] at h
    cases h
  · rw [txt_cons f hs, Tok.of] at h
    split at h
    · rename_i ha
      cases h
      exact ⟨ha, rfl, rfl⟩
    · cases h

/-- .. or another one. -/
theorem gettoken_of_sym {c : UInt8} (h : txt f s = .sym c :: r) :
    (gettoken s).1 = c ∧ c ≠ 'a'.toUInt8 ∧ c ≠ 0 ∧ txt f (gettoken s).2.2 = r := by
  by_cases hs : skip s = []
  · rw [txt_nil f hs] at h
    cases h
  · obtain ⟨d, s', hd⟩ := List.exists_cons_of_ne_nil hs
    have h0 := (gettoken_found hd).span.1
    rw [txt_cons f hs, Tok.of] at h
    split at h
    · cases h
    · rename_i ha
      cases h
      exact ⟨rfl, ha, h0, rfl⟩

theorem txt_of_word (h : (gettoken s).1 = 'a'.toUInt8) : txt f s = .word (f (gettoken s).2.1) :: txt f (gettoken s).2.2 := by
  by_cases hs : skip s = []
  · rw [gettoken_nil hs] at h
    exact absurd h (by decide)
  · rw [txt_cons f hs, Tok.of, if_pos h]

/-- `peek` looks at the first token. -/
theorem peek_eq (f : Span → W) (s : Ptr) {syms : List UInt8} (hsyms : ∀ c ∈ syms, c ∈ symbols) :
    peek s syms = ((txt f s).head?.any (Tok.starts syms), skip s) := by
  unfold peek
  cases hs : skip s with
  | nil => simp [txt_nil f hs]
  | cons c r =>
    rw [txt_cons f (by simp [hs])]
    have hf := gettoken_found hs
    generalize gettoken s = x at hf
    refine Prod.ext ?_ rfl
    show decide (c ∈ syms) = (Tok.of x.1 (f x.2.1)).starts syms
    cases hf with
    | append s' hc hr =>
      have ha : '+'.toUInt8 ≠ 'a'.toUInt8 := by decide
      rw [hc, Tok.of, if_neg ha]
      rfl
    | single hc hr =>
      have ha : c ≠ 'a'.toUInt8 := fun ha => absurd (ha ▸ hc) (by decide)
      have hp : c ≠ '+'.toUInt8 := fun hp => absurd (hp ▸ hc) (by decide)
      rw [Tok.of, if_neg ha]
      simp [Tok.starts, hp]
    | word hc =>
      have hsym : c ∉ syms := fun hin => by
        have := hsyms c hin
        simp [inWord, this] at hc
      simp [Tok.of, Tok.starts, hsym]

end txt

/-! ### Maximal words -/

/-- The line is cut into the tokens. -/
inductive Lexes : List UInt8 → List (Tok (List UInt8)) → Prop
  | nil : Lexes [] []
  | blank {c : UInt8} {s : List UInt8} {ts : List (Tok (List UInt8))} (hc : c ∈ whitespace) (hs : Lexes s ts) : Lexes (c :: s) ts
  | append {s : List UInt8} {ts : List (Tok (List UInt8))} (hs : Lexes s ts) :
      Lexes ('>'.toUInt8 :: '>'.toUInt8 :: s) (.sym '+'.toUInt8 :: ts)
  | single {c : UInt8} {s : List UInt8} {ts : List (Tok (List UInt8))} (hc : c ∈ symbols)
      (hgt : c = '>'.toUInt8 → s.head? ≠ some '>'.toUInt8) (hs : Lexes s ts) : Lexes (c :: s) (.sym c :: ts)
  | word {w s : List UInt8} {ts : List (Tok (List UInt8))} (hne : w ≠ []) (hw : ∀ c ∈ w, inWord c = true)
      (hend : ∀ c ∈ s.head?, inWord c = false) (hs : Lexes s ts) : Lexes (w ++ s) (.word w :: ts)

/-- The bytes of a token. -/
def text (w : Span) : List UInt8 := w.q.take (w.q.length - w.eq.length)

theorem text_append (w s : List UInt8) : text ⟨w ++ s, s⟩ = w := by
  unfold text
  simp

theorem lexes_skip {s : List UInt8} {ts : List (Tok (List UInt8))} (h : Lexes (skip s) ts) : Lexes s ts := by
  induction s with
  | nil => exact h
  | cons c s ih =>
    by_cases hc : c ∈ whitespace
    · rw [skip_blank hc] at h
      exact .blank hc (ih h)
    · rwa [skip_eq_self hc] at h

/-- `gettoken` cuts the line so .. -/
theorem lexes_txt (s : List UInt8) : Lexes s (txt text s) := by
  induction s using toks.induct with
  | case1 s hs =>
    rw [txt_nil text hs]
    exact lexes_skip (by rw [hs]; exact .nil)
  | case2 s hs hlt ih =>
    obtain ⟨c, r, hr⟩ := List.exists_cons_of_ne_nil hs
    rw [txt_cons text hs]
    apply lexes_skip
    rw [hr]
    have hf := gettoken_found hr
    generalize gettoken s = x at hf ih
    cases hf with
    | append s' hc hs' =>
      rw [hc, hs']
      exact .append (lexes_skip ih)
    | single hc hgt =>
      have ha : c ≠ 'a'.toUInt8 := fun ha => absurd (ha ▸ hc) (by decide)
      rw [Tok.of, if_neg ha]
      exact .single hc hgt (lexes_skip ih)
    | word hc =>
      have hcut : c :: r = (c :: r.takeWhile inWord) ++ r.dropWhile inWord := by simp
      rw [Tok.of, if_pos rfl, hcut, text_append]
      refine .word (List.cons_ne_nil _ _) ?_ ?_ (lexes_skip ih)
      · intro d hd
        rcases List.mem_cons.1 hd with rfl | hd
        · exact hc
        · exact List.all_eq_true.1 List.all_takeWhile d hd
      · intro d hd
        have := List.head?_dropWhile_not inWord r
        rw [hd] at this
        exact this

/-- .. and there is no other way. -/
theorem Lexes.eq {s : List UInt8} {ts : List (Tok (List UInt8))} (h : Lexes s ts) : ts = txt text s := by
  induction h with
  | nil => rw [txt_nil text rfl]
  | @blank c s ts hc hs ih => rw [← txt_skip, skip_blank hc, txt_skip, ih]
  | @append s ts hs ih =>
    have hf := gettoken_found (skip_eq_self (c := '>'.toUInt8) (s := '>'.toUInt8 :: s) (by decide))
    rw [txt_cons text (skip_ne_nil (by decide))]
    generalize gettoken ('>'.toUInt8 :: '>'.toUInt8 :: s) = x at hf
    cases hf with
    | append s' hc hs' =>
      cases hs'
      rw [txt_skip, ih]
      rfl
    | single hc hgt => exact absurd rfl (hgt rfl)
    | word hc => exact absurd hc (by decide)
  | @single c s ts hc hgt hs ih =>
    have hblank : c ∉ whitespace :=
      of_decide_eq_true (List.all_eq_true.1 (show symbols.all (fun c => c ∉ whitespace) = true by decide) c hc)
    have hf := gettoken_found (skip_eq_self (s := s) hblank)
    rw [txt_cons text (skip_ne_nil hblank)]
    generalize gettoken (c :: s) = x at hf
    cases hf with
    | append s' hc' hs' =>
      rw [hs'] at hgt
      exact absurd rfl (hgt hc')
    | single hc' hgt' =>
      have ha : c ≠ 'a'.toUInt8 := fun ha => absurd (ha ▸ hc) (by decide)
      rw [Tok.of, if_neg ha, txt_skip, ih]
    | word hc' => simp [inWord, hc] at hc'
  | @word w s ts hne hw hend hs ih =>
    obtain ⟨c, w', rfl⟩ := List.exists_cons_of_ne_nil hne
    have hc := hw c (by simp)
    have hblank : c ∉ whitespace := by simp [inWord] at hc; exact hc.1
    have hsym : c ∉ symbols := by simp [inWord] at hc; exact hc.2
    have hf := gettoken_found (skip_eq_self (s := w' ++ s) hblank)
    have hdrop : (w' ++ s).dropWhile inWord = s := by
      rw [List.dropWhile_append_of_pos (fun d hd => hw d (List.mem_cons_of_mem _ hd))]
      cases s with
      | nil => rfl
      | cons d s => exact List.dropWhile_cons_of_neg (by simpa using hend d rfl)
    rw [List.cons_append, txt_cons text (skip_ne_nil hblank)]
    generalize gettoken (c :: (w' ++ s)) = x at hf
    cases hf with
    | append s' hc' hs' =>
      rw [hc'] at hsym
      exact absurd (by decide) hsym
    | single hc' hgt' => exact absurd hc' hsym
    | word hc' =>
      rw [Tok.of, if_pos rfl, hdrop, txt_skip, ih, ← List.cons_append, text_append]

theorem lexes_iff {s : List UInt8} {ts : List (Tok (List UInt8))} : Lexes s ts ↔ ts = txt text s := by
  constructor
  · exact Lexes.eq
  · rintro rfl
    exact lexes_txt s

end Sh

end Xv6
