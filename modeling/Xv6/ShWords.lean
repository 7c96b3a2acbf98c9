import Mathlib.Data.List.GetD
import Xv6.ShGrammar

/-!
# The words of a command

`nulterminate` writes zeros into the line, at the bytes after the words.  None of these bytes is one of a word, so that in the end each
pointer of the tree leads to the text of its word (`strAt_nulterminate`), and the tree that the shell runs is the one that the grammar
gives for the text of the line (`parse_iff`).
-/

namespace Xv6

namespace Sh

/-! ### Whole lines -/

section

variable {W : Type} (f : Span → W) (line : List UInt8)

theorem parsecmd_fuel : 4 * (txt f line).length + 4 ≤ 4 * (line.length + 1) := by
  have := length_txt f line
  omega

theorem parsecmd_sound :
    Outcome True (parsecmd line) fun c => ∃ d : Line W, txt f line = d.toks ∧ c.map f = d.cmd ∧ d.Fits := by
  unfold parsecmd
  refine Outcome.bind ((parse_sound f _).1 line (parsecmd_fuel f line)) fun x hx => ?_
  obtain ⟨cmd, s⟩ := x
  obtain ⟨d, htoks, hcmd, hfits⟩ := hx
  simp only [peek_eq f s (show ∀ c ∈ [], c ∈ symbols by simp)]
  by_cases hs : skip s = []
  · simp only [hs, ne_eq, not_true_eq_false, if_false]
    refine ⟨d, ?_, hcmd, hfits⟩
    rw [htoks, txt_nil f hs, List.append_nil]
  · simp only [ne_eq, hs, not_false_eq_true, if_true]
    exact Outcome.panic trivial _

theorem parsecmd_complete {d : Line W} (hs : txt f line = d.toks) (hfits : d.Fits) :
    Outcome False (parsecmd line) fun c => c.map f = d.cmd := by
  unfold parsecmd
  have htoks : txt f line = d.toks ++ [] := by rw [hs, List.append_nil]
  refine Outcome.bind ((parse_complete f _).1 line d [] htoks (ends_nil _) hfits (parsecmd_fuel f line)) fun x hx => ?_
  obtain ⟨cmd, s⟩ := x
  obtain ⟨hx, hcmd⟩ := hx
  simp only [peek_eq f s (show ∀ c ∈ [], c ∈ symbols by simp)]
  simp only [skip_of_txt hx, ne_eq, not_true_eq_false, if_false]
  exact hcmd

end

/-! ### Words of the tree -/

namespace Cmd

variable {V W : Type}

theorem words_wrap (cmd : Cmd W) (rs : List (Redir W)) : (wrap cmd rs).words = cmd.words ++ rs.map (·.file) := by
  induction rs generalizing cmd with
  | nil => simp [wrap]
  | cons r rs ih =>
    rw [show wrap cmd (r :: rs) = wrap (.redir cmd r.file r.mode r.fd) rs from rfl, ih]
    simp [words]

theorem words_back (cmd : Cmd W) (n : Nat) : (back^[n] cmd).words = cmd.words := by
  induction n generalizing cmd with
  | zero => rfl
  | succ n ih => exact ih _

theorem map_congr {f g : V → W} {c : Cmd V} (h : ∀ w ∈ c.words, f w = g w) : c.map f = c.map g := by
  induction c with
  | exec argv => exact congrArg exec (List.map_congr_left h)
  | redir cmd file mode fd ih =>
    simp only [words, List.mem_append, List.mem_singleton] at h
    rw [map, map, ih fun w hw => h w (.inl hw), h file (.inr rfl)]
  | pipe left right ihl ihr =>
    simp only [words, List.mem_append] at h
    rw [map, map, ihl fun w hw => h w (.inl hw), ihr fun w hw => h w (.inr hw)]
  | list left right ihl ihr =>
    simp only [words, List.mem_append] at h
    rw [map, map, ihl fun w hw => h w (.inl hw), ihr fun w hw => h w (.inr hw)]
  | back cmd ih => rw [map, map, ih h]

theorem map_id (c : Cmd V) : c.map id = c := by
  induction c with
  | exec argv => rw [map, List.map_id]
  | redir cmd file mode fd ih => rw [map, ih, id]
  | pipe left right ihl ihr => rw [map, ihl, ihr]
  | list left right ihl ihr => rw [map, ihl, ihr]
  | back cmd ih => rw [map, ih]

end Cmd

section

variable {W : Type}

theorem mem_redirToks {rs : List (RedirOp × W)} {w : W} (h : w ∈ (redirs rs).map (·.file)) : .word w ∈ redirToks rs := by
  simp only [redirs, List.map_map, List.mem_map, Function.comp] at h
  obtain ⟨r, hr, rfl⟩ := h
  refine List.mem_flatMap.2 ⟨r, hr, ?_⟩
  have : (r.1.redir r.2).file = r.2 := by cases r.1 <;> rfl
  simp [this]

theorem mem_argToks {args : List (W × List (RedirOp × W))} {w : W}
    (h : w ∈ args.map (·.1) ∨ w ∈ (redirs (args.flatMap (·.2))).map (·.file)) : .word w ∈ argToks args := by
  rcases h with h | h
  · obtain ⟨a, ha, rfl⟩ := List.mem_map.1 h
    exact List.mem_flatMap.2 ⟨a, ha, List.mem_cons_self⟩
  · have := mem_redirToks h
    obtain ⟨r, hr, hw⟩ := List.mem_flatMap.1 this
    obtain ⟨a, ha, hra⟩ := List.mem_flatMap.1 hr
    exact List.mem_flatMap.2 ⟨a, ha, List.mem_cons_of_mem _ (List.mem_flatMap.2 ⟨r, hra, hw⟩)⟩

/-- The words of the command are words of the line. -/
theorem Line.mem_toks (d : Line W) {w : W} : w ∈ d.cmd.words → .word w ∈ d.toks := by
  refine @Line.rec W (fun d => w ∈ d.cmd.words → .word w ∈ d.toks) (fun p => w ∈ p.cmd.words → .word w ∈ p.toks)
    (fun e => w ∈ e.cmd.words → .word w ∈ e.toks) ?last ?seq ?one ?cons ?block ?simple d
  case last =>
    intro p n ih h
    rw [Line.cmd, Cmd.words_back] at h
    exact List.mem_append_left _ (ih h)
  case seq =>
    intro p n l ihp ihl h
    rw [Line.cmd, Cmd.words, Cmd.words_back, List.mem_append] at h
    rw [Line.toks, List.mem_append, List.mem_append, List.mem_cons]
    exact h.imp ihp fun h => .inr (.inr (ihl h))
  case one =>
    intro e ih h
    exact ih h
  case cons =>
    intro e p ihe ihp h
    rw [Pipe.cmd, Cmd.words, List.mem_append] at h
    rw [Pipe.toks, List.mem_append, List.mem_cons]
    exact h.imp ihe fun h => .inr (ihp h)
  case block =>
    intro l rs ih h
    rw [Exec.cmd, Cmd.words_wrap, List.mem_append] at h
    rw [Exec.toks, List.mem_cons, List.mem_append, List.mem_cons]
    exact .inr (h.imp ih fun h => .inr (mem_redirToks h))
  case simple =>
    intro rs args h
    rw [Exec.cmd, Cmd.words_wrap, List.mem_append, redirs, List.map_append, List.map_append, List.mem_append] at h
    rw [Exec.toks, List.mem_append]
    rcases h with h | h | h
    · exact .inr (mem_argToks (.inl h))
    · exact .inl (mem_redirToks h)
    · exact .inr (mem_argToks (.inr h))

end

/-! ### Words of the line -/

/-- A word of the line: no byte before its end is one that ends a word. -/
structure IsWord (line : List UInt8) (w : Span) : Prop where
  cut : w.q = text w ++ w.eq
  suffix : w.q <:+ line
  inside : ∀ c ∈ text w, inWord c = true
  outside : ∀ c ∈ w.eq.head?, inWord c = false

theorem isWord_toks {s : Ptr} {w : Span} (h : .word w ∈ toks s) : IsWord s w := by
  induction s using toks.induct with
  | case1 s hs =>
    rw [toks_nil hs] at h
    cases h
  | case2 s hs hlt ih =>
    obtain ⟨c, r, hr⟩ := List.exists_cons_of_ne_nil hs
    rw [toks_cons hs] at h
    have hf := gettoken_found hr
    have hsuf : c :: r <:+ s := hr ▸ skip_suffix s
    obtain ⟨-, -, heq, hrest⟩ := hf.span
    rcases List.mem_cons.1 h with h | h
    · generalize gettoken s = x at hf h
      cases hf with
      | append s' hc hs' => exact absurd h (by rw [Tok.of, if_neg (show '+'.toUInt8 ≠ 'a'.toUInt8 by decide)]; simp)
      | single hc hgt =>
        have ha : c ≠ 'a'.toUInt8 := fun ha => absurd (ha ▸ hc) (by decide)
        rw [Tok.of, if_neg ha] at h
        cases h
      | word hc =>
        rw [Tok.of, if_pos rfl] at h
        cases h
        have hcut : c :: r = (c :: r.takeWhile inWord) ++ r.dropWhile inWord := by simp
        have htext : text ⟨c :: r, r.dropWhile inWord⟩ = c :: r.takeWhile inWord := by
          rw [hcut]
          exact text_append ..
        constructor
        · rw [htext]
          exact hcut
        · exact hsuf
        · intro d hd
          rw [htext] at hd
          rcases List.mem_cons.1 hd with rfl | hd
          · exact hc
          · exact List.all_eq_true.1 List.all_takeWhile d hd
        · intro d hd
          have := List.head?_dropWhile_not inWord r
          rw [Option.mem_def.1 hd] at this
          exact this
    · obtain ⟨hcut, hsuffix, hin, hout⟩ := ih h
      have hs' : (gettoken s).2.2 <:+ s := by
        rw [hrest]
        exact (skip_suffix _).trans (heq.trans ((List.suffix_cons ..).trans hsuf))
      exact ⟨hcut, hsuffix.trans hs', hin, hout⟩

theorem drop_offset {line s : List UInt8} (h : s <:+ line) : line.drop (offset line s) = s := by
  obtain ⟨t, rfl⟩ := h
  simp [offset]

theorem lineBuf_offset {line s : List UInt8} (h : s <:+ line) (j : Nat) : lineBuf line (offset line s + j) = s.getD j 0 := by
  conv_rhs => rw [← drop_offset h]
  simp [lineBuf]

section

variable {line : List UInt8} {c : Cmd Span}

theorem foldl_zeros (ends : List Nat) (m : Nat → UInt8) (i : Nat) :
    ends.foldl (fun m e => Function.update m e 0) m i = if i ∈ ends then 0 else m i := by
  induction ends generalizing m with
  | nil => simp
  | cons e ends ih =>
    rw [List.foldl_cons, ih]
    by_cases hi : i ∈ ends
    · simp [hi]
    · by_cases he : i = e
      · simp [he]
      · simp [hi, he, Function.update_of_ne]

/-- The bytes after the words become zeros. -/
theorem nulterminate_eq (line : List UInt8) (c : Cmd Span) (m : Nat → UInt8) (i : Nat) :
    nulterminate line c m i = if i ∈ c.words.map (offset line ·.eq) then 0 else m i := by
  induction c generalizing m with
  | exec argv =>
    rw [nulterminate, Cmd.words, ← foldl_zeros, List.foldl_map]
  | redir cmd file mode fd ih =>
    rw [nulterminate, Cmd.words, List.map_append, Function.update_apply, ih]
    by_cases hi : i = offset line file.eq
    · simp [hi]
    · simp [hi]
  | pipe left right ihl ihr =>
    rw [nulterminate, Cmd.words, List.map_append, ihr, ihl]
    by_cases hi : i ∈ right.words.map (offset line ·.eq)
    · rw [if_pos hi, if_pos (List.mem_append_right _ hi)]
    · rw [if_neg hi]
      simp only [List.mem_append, hi, or_false]
  | list left right ihl ihr =>
    rw [nulterminate, Cmd.words, List.map_append, ihr, ihl]
    by_cases hi : i ∈ right.words.map (offset line ·.eq)
    · rw [if_pos hi, if_pos (List.mem_append_right _ hi)]
    · rw [if_neg hi]
      simp only [List.mem_append, hi, or_false]
  | back cmd ih => exact ih m

/-- Each pointer leads to the text of its word. -/
theorem strAt_nulterminate (h0 : 0 ∉ line) (hc : ∀ w ∈ c.words, IsWord line w) {w : Span} (hw : w ∈ c.words) :
    strAt (nulterminate line c (lineBuf line)) line.length (offset line w.q) = text w := by
  have hword := hc w hw
  have hqlen := congrArg List.length hword.cut
  rw [List.length_append] at hqlen
  have hle := hword.suffix.length_le
  -- the end of a word is not inside of this one
  have hbytes : ∀ j < (text w).length,
      nulterminate line c (lineBuf line) (offset line w.q + j) = (text w).getD j 0 := by
    intro j hj
    have hbyte : lineBuf line (offset line w.q + j) = (text w).getD j 0 := by
      rw [lineBuf_offset hword.suffix, hword.cut, List.getD_append _ _ _ _ hj]
    rw [nulterminate_eq, if_neg, hbyte]
    intro hi
    obtain ⟨v, hv, he⟩ := List.mem_map.1 hi
    have hvword := hc v hv
    have hvsuf : v.eq <:+ line := by
      refine List.IsSuffix.trans ?_ hvword.suffix
      rw [hvword.cut]
      exact List.suffix_append ..
    have hend := lineBuf_offset hvsuf 0
    rw [Nat.add_zero, he, hbyte] at hend
    have hin := hword.inside (text w)[j] (List.getElem_mem hj)
    rw [List.getD_eq_getElem _ _ hj] at hend
    cases hveq : v.eq with
    | nil =>
      rw [hveq] at he
      simp only [offset, List.length_nil] at he
      omega
    | cons d r =>
      rw [hveq, List.getD_cons_zero] at hend
      have hout := hvword.outside d (by rw [hveq]; rfl)
      rw [← hend, hin] at hout
      cases hout
  have hzero : nulterminate line c (lineBuf line) (offset line w.q + (text w).length) = 0 := by
    rw [nulterminate_eq, if_pos]
    refine List.mem_map.2 ⟨w, hw, ?_⟩
    simp only [offset]
    omega
  have hnz : ∀ d ∈ text w, d ≠ 0 := by
    intro d hd hd0
    refine h0 (hword.suffix.subset ?_)
    rw [hword.cut, ← hd0]
    exact List.mem_append_left _ hd
  have hrange : List.range' (offset line w.q) (line.length + 1 - offset line w.q) =
      List.range' (offset line w.q) (text w).length ++ (offset line w.q + (text w).length) ::
        List.range' (offset line w.q + (text w).length + 1) w.eq.length := by
    have hn : line.length + 1 - offset line w.q = (text w).length + (w.eq.length + 1) := by
      simp only [offset]
      omega
    rw [hn, ← List.range'_append_1, List.range'_succ]
  have hmap : (List.range' (offset line w.q) (text w).length).map (nulterminate line c (lineBuf line)) = text w := by
    apply List.ext_getElem
    · simp
    · intro j h1 h2
      rw [List.getElem_map, List.getElem_range', Nat.one_mul, hbytes j h2, List.getD_eq_getElem _ _ h2]
  rw [strAt, hrange, List.map_append, List.map_cons, hmap, hzero, List.takeWhile_append_of_pos (by simpa using hnz),
    List.takeWhile_cons_of_neg (by simp), List.append_nil]

end

/-! ### The tree that is run -/

theorem isWord_parsecmd {line : List UInt8} {c : Cmd Span} (h : parsecmd line = .ok c) : ∀ w ∈ c.words, IsWord line w := by
  obtain ⟨d, htoks, hcmd, -⟩ := (parsecmd_sound id line).ok h
  intro w hw
  rw [← Cmd.map_id c, hcmd] at hw
  have hmem := d.mem_toks hw
  rw [← htoks, txt, List.mem_map] at hmem
  obtain ⟨t, ht, he⟩ := hmem
  cases t with
  | word v =>
    cases he
    exact isWord_toks ht
  | sym c => cases he

theorem parse_eq {line : List UInt8} (h0 : 0 ∉ line) : parse line = (parsecmd line).map (Cmd.map text) := by
  unfold parse
  cases h : parsecmd line with
  | error stop => rfl
  | ok c => exact congrArg Except.ok (Cmd.map_congr fun w hw => strAt_nulterminate h0 (isWord_parsecmd h) hw)

/-- The parser accepts exactly the lines of the grammar, and gives the tree of the grammar, with the words as they are in the line. -/
theorem parse_ok_iff {line : List UInt8} (h0 : 0 ∉ line) (c : Cmd (List UInt8)) :
    parse line = .ok c ↔ ∃ d : Line (List UInt8), Lexes line d.toks ∧ d.Fits ∧ d.cmd = c := by
  rw [parse_eq h0]
  constructor
  · intro h
    have hs := parsecmd_sound text line
    cases hc : parsecmd line with
    | error stop =>
      rw [hc] at h
      cases h
    | ok c' =>
      rw [hc] at h hs
      obtain ⟨d, htoks, hcmd, hfits⟩ := hs
      cases h
      exact ⟨d, lexes_iff.2 htoks.symm, hfits, hcmd.symm⟩
  · rintro ⟨d, hlex, hfits, rfl⟩
    have hcomp := parsecmd_complete text line (lexes_iff.1 hlex).symm hfits
    cases hc : parsecmd line with
    | ok c' =>
      rw [hc] at hcomp
      exact congrArg Except.ok hcomp
    | error stop =>
      rw [hc] at hcomp
      cases stop with
      | panic msg => exact hcomp.elim
      | fuel => exact hcomp.elim

/-- The lines that are not of the grammar stop the parser in `panic`. -/
theorem parse_iff {line : List UInt8} (h0 : 0 ∉ line) :
    (∀ c, parse line = .ok c ↔ ∃ d : Line (List UInt8), Lexes line d.toks ∧ d.Fits ∧ d.cmd = c) ∧ parse line ≠ .error .fuel := by
  refine ⟨parse_ok_iff h0, fun h => ?_⟩
  rw [parse_eq h0] at h
  have hs := parsecmd_sound text line
  cases hc : parsecmd line with
  | ok c =>
    rw [hc] at h
    cases h
  | error stop =>
    rw [hc] at h hs
    cases h
    exact hs

/-- `a|b>c&` -/
private def lineOne : List UInt8 := ['a'.toUInt8, '|'.toUInt8, 'b'.toUInt8, '>'.toUInt8, 'c'.toUInt8, '&'.toUInt8]

theorem parse_iff_one : 0 ∉ lineOne ∧
    ((∀ c, parse lineOne = .ok c ↔ ∃ d : Line (List UInt8), Lexes lineOne d.toks ∧ d.Fits ∧ d.cmd = c) ∧ parse lineOne ≠ .error .fuel) :=
  ⟨by decide, parse_iff (by decide)⟩

end Sh

end Xv6
