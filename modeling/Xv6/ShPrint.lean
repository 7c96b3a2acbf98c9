import Xv6.ShWords

/-!
# Command lines for trees

The trees that the parser can return are those with words as they are in a line and with one of the three redirections (`Cmd.Legal`).
Each of them is the tree of a line (`parse_print`): `Cmd.print` writes the tokens of a syntax tree with all the parentheses, with a
blank after each one.
-/

namespace Xv6

namespace Sh

def GoodWord (w : List UInt8) : Prop := w ≠ [] ∧ ∀ c ∈ w, inWord c = true ∧ c ≠ 0

namespace Cmd

/-- What a line can stand for. -/
def Legal : Cmd (List UInt8) → Prop
  | exec argv => argv.length < MAXARGS ∧ ∀ w ∈ argv, GoodWord w
  | redir cmd file mode fd => cmd.Legal ∧ GoodWord file ∧ ∃ op : RedirOp, op.redir file = ⟨file, mode, fd⟩
  | pipe left right => left.Legal ∧ right.Legal
  | list left right => left.Legal ∧ right.Legal
  | back cmd => cmd.Legal

/-- The redirection with this mode and descriptor. -/
def opOf (mode fd : Nat) : RedirOp :=
  if fd = 0 then .input else if mode = SysFile.O_WRONLY ||| SysFile.O_CREATE then .append else .output

/-- A syntax tree for the command, with parentheses around each part. -/
def derive : Cmd (List UInt8) → Line (List UInt8)
  | exec argv => .last (.one (.simple [] (argv.map fun w => (w, [])))) 0
  | redir cmd file mode fd => .last (.one (.block cmd.derive [(opOf mode fd, file)])) 0
  | pipe left right => .last (.cons (.block left.derive []) (.one (.block right.derive []))) 0
  | list left right => .seq (.one (.block left.derive [])) 0 right.derive
  | back cmd => .last (.one (.block cmd.derive [])) 1

end Cmd

namespace Tok

def bytes : Tok (List UInt8) → List UInt8
  | word w => w
  | sym c => if c = '+'.toUInt8 then ['>'.toUInt8, '>'.toUInt8] else [c]

/-- The token can be one of a line. -/
def Good : Tok (List UInt8) → Prop
  | word w => GoodWord w
  | sym c => c ∈ symbols ∨ c = '+'.toUInt8

end Tok

def printToks (ts : List (Tok (List UInt8))) : List UInt8 := ts.flatMap fun t => t.bytes ++ [' '.toUInt8]

def Cmd.print (c : Cmd (List UInt8)) : List UInt8 := printToks c.derive.toks

/-! ### What is printed is read -/

theorem lexes_printToks {ts : List (Tok (List UInt8))} (h : ∀ t ∈ ts, t.Good) : Lexes (printToks ts) ts := by
  induction ts with
  | nil => exact .nil
  | cons t ts ih =>
    have hrest : Lexes (' '.toUInt8 :: printToks ts) ts := .blank (by decide) (ih fun u hu => h u (List.mem_cons_of_mem _ hu))
    have hcons : printToks (t :: ts) = t.bytes ++ ' '.toUInt8 :: printToks ts := by simp [printToks]
    have ht := h t List.mem_cons_self
    rw [hcons]
    cases t with
    | word w =>
      refine .word ht.1 (fun c hc => (ht.2 c hc).1) (fun c hc => ?_) hrest
      rw [List.head?_cons, Option.mem_def, Option.some.injEq] at hc
      rw [← hc]
      decide
    | sym c =>
      rcases ht with hc | rfl
      · have hp : c ≠ '+'.toUInt8 := fun hp => absurd (hp ▸ hc) (by decide)
        rw [Tok.bytes, if_neg hp]
        exact .single hc (fun _ h => absurd (Option.some.inj h) (by decide)) hrest
      · exact .append hrest

theorem zero_notMem_printToks {ts : List (Tok (List UInt8))} (h : ∀ t ∈ ts, t.Good) : 0 ∉ printToks ts := by
  intro h0
  obtain ⟨t, ht, hin⟩ := List.mem_flatMap.1 h0
  rw [List.mem_append] at hin
  rcases hin with hin | hin
  · have hgood := h t ht
    cases t with
    | word w => exact (hgood.2 0 hin).2 rfl
    | sym c =>
      rw [Tok.bytes] at hin
      split at hin
      · exact absurd hin (by decide)
      · rw [List.mem_singleton] at hin
        subst hin
        rcases hgood with hc | hc
        · exact absurd hc (by decide)
        · exact absurd hc (by decide)
  · exact absurd hin (by decide)

theorem RedirOp.good_tok (op : RedirOp) : (op.tok : Tok (List UInt8)).Good := by
  cases op
  · exact .inl (by decide)
  · exact .inl (by decide)
  · exact .inr rfl

theorem opOf_redir {op : RedirOp} {file : List UInt8} {mode fd : Nat} (h : op.redir file = ⟨file, mode, fd⟩) : Cmd.opOf mode fd = op := by
  cases op <;> (cases h; rfl)

namespace Cmd

variable {c : Cmd (List UInt8)}

theorem derive_cmd (h : c.Legal) : c.derive.cmd = c := by
  induction c with
  | exec argv =>
    have hargs : (argv.map fun w => (w, ([] : List (RedirOp × List UInt8)))).flatMap (·.2) = [] := by
      simp [List.flatMap_map]
    rw [derive, Line.cmd, Pipe.cmd, Exec.cmd, hargs]
    simp [redirs, wrap, Function.comp_def]
  | redir cmd file mode fd ih =>
    obtain ⟨hcmd, -, op, hop⟩ := h
    rw [derive, Line.cmd, Pipe.cmd, Exec.cmd, ih hcmd, opOf_redir hop]
    simp [redirs, wrap, hop]
  | pipe left right ihl ihr =>
    simp [derive, Line.cmd, Pipe.cmd, Exec.cmd, redirs, wrap, ihl h.1, ihr h.2]
  | list left right ihl ihr =>
    simp [derive, Line.cmd, Pipe.cmd, Exec.cmd, redirs, wrap, ihl h.1, ihr h.2]
  | back cmd ih =>
    simp [derive, Line.cmd, Pipe.cmd, Exec.cmd, redirs, wrap, ih h]

theorem derive_fits (h : c.Legal) : c.derive.Fits := by
  induction c with
  | exec argv =>
    show (argv.map _).length < MAXARGS
    rw [List.length_map]
    exact h.1
  | redir cmd file mode fd ih => exact ih h.1
  | pipe left right ihl ihr => exact ⟨ihl h.1, ihr h.2⟩
  | list left right ihl ihr => exact ⟨ihl h.1, ihr h.2⟩
  | back cmd ih => exact ih h

theorem derive_good (h : c.Legal) : ∀ t ∈ c.derive.toks, t.Good := by
  have hsym : ∀ {s : UInt8}, s ∈ symbols → (Tok.sym s).Good := fun hs => .inl hs
  induction c with
  | exec argv =>
    intro t ht
    simp only [derive, Line.toks, Pipe.toks, Exec.toks, redirToks, argToks, backToks, List.flatMap_nil, List.nil_append,
      List.replicate_zero, List.append_nil, List.flatMap_map, List.mem_flatMap, List.mem_singleton] at ht
    obtain ⟨w, hw, rfl⟩ := ht
    exact h.2 w hw
  | redir cmd file mode fd ih =>
    intro t ht
    simp only [derive, Line.toks, Pipe.toks, Exec.toks, redirToks, backToks, List.flatMap_cons, List.flatMap_nil, List.append_nil,
      List.replicate_zero, List.mem_cons, List.mem_append, List.not_mem_nil, or_false] at ht
    rcases ht with rfl | ht | rfl | rfl | rfl
    · exact hsym (by decide)
    · exact ih h.1 t ht
    · exact hsym (by decide)
    · exact RedirOp.good_tok _
    · exact h.2.1
  | pipe left right ihl ihr =>
    intro t ht
    simp only [derive, Line.toks, Pipe.toks, Exec.toks, redirToks, backToks, List.flatMap_nil, List.append_nil,
      List.replicate_zero, List.mem_cons, List.mem_append, List.not_mem_nil, or_false] at ht
    rcases ht with (rfl | ht | rfl) | rfl | rfl | ht | rfl
    · exact hsym (by decide)
    · exact ihl h.1 t ht
    · exact hsym (by decide)
    · exact hsym (by decide)
    · exact hsym (by decide)
    · exact ihr h.2 t ht
    · exact hsym (by decide)
  | list left right ihl ihr =>
    intro t ht
    simp only [derive, Line.toks, Pipe.toks, Exec.toks, redirToks, backToks, List.flatMap_nil, List.nil_append,
      List.replicate_zero, List.mem_cons, List.mem_append, List.not_mem_nil, or_false] at ht
    rcases ht with (rfl | ht | rfl) | rfl | ht
    · exact hsym (by decide)
    · exact ihl h.1 t ht
    · exact hsym (by decide)
    · exact hsym (by decide)
    · exact ihr h.2 t ht
  | back cmd ih =>
    intro t ht
    simp only [derive, Line.toks, Pipe.toks, Exec.toks, redirToks, backToks, List.flatMap_nil, List.mem_cons, List.mem_append,
      List.not_mem_nil, or_false, List.mem_replicate] at ht
    rcases ht with (rfl | ht | rfl) | ⟨-, rfl⟩
    · exact hsym (by decide)
    · exact ih h t ht
    · exact hsym (by decide)
    · exact hsym (by decide)

end Cmd

/-! ### What is read is legal -/

theorem Lexes.good {line : List UInt8} {ts : List (Tok (List UInt8))} (h : Lexes line ts) (h0 : 0 ∉ line) {w : List UInt8}
    (hw : .word w ∈ ts) : GoodWord w := by
  induction h with
  | nil => cases hw
  | blank hc hs ih => exact ih (fun h => h0 (List.mem_cons_of_mem _ h)) hw
  | append hs ih =>
    refine ih (fun h => h0 (List.mem_cons_of_mem _ (List.mem_cons_of_mem _ h))) ?_
    rcases List.mem_cons.1 hw with hw | hw
    · cases hw
    · exact hw
  | single hc hgt hs ih =>
    refine ih (fun h => h0 (List.mem_cons_of_mem _ h)) ?_
    rcases List.mem_cons.1 hw with hw | hw
    · cases hw
    · exact hw
  | word hne hin hend hs ih =>
    rcases List.mem_cons.1 hw with hw | hw
    · cases hw
      exact ⟨hne, fun c hc => ⟨hin c hc, fun hc0 => h0 (List.mem_append_left _ (hc0 ▸ hc))⟩⟩
    · exact ih (fun h => h0 (List.mem_append_right _ h)) hw

theorem legal_wrap {cmd : Cmd (List UInt8)} {rs : List (RedirOp × List UInt8)} (hcmd : cmd.Legal)
    (hrs : ∀ r ∈ rs, GoodWord r.2) : (wrap cmd (redirs rs)).Legal := by
  induction rs generalizing cmd with
  | nil => exact hcmd
  | cons r rs ih =>
    refine ih ⟨hcmd, ?_, r.1, ?_⟩ fun q hq => hrs q (List.mem_cons_of_mem _ hq)
    · have := hrs r List.mem_cons_self
      cases hr : r.1 <;> simpa [RedirOp.redir, hr] using this
    · cases hr : r.1 <;> simp [RedirOp.redir, hr]

theorem legal_back {cmd : Cmd (List UInt8)} (n : Nat) (hcmd : cmd.Legal) : (Cmd.back^[n] cmd).Legal := by
  induction n generalizing cmd with
  | zero => exact hcmd
  | succ n ih => exact ih hcmd

theorem mem_redirToks_iff {W : Type} {rs : List (RedirOp × W)} {w : W} : .word w ∈ redirToks rs ↔ ∃ r ∈ rs, r.2 = w := by
  simp only [redirToks, List.mem_flatMap, List.mem_cons, List.not_mem_nil, or_false, Tok.word.injEq]
  refine exists_congr fun r => and_congr_right fun _ => ?_
  constructor
  · rintro (h | h)
    · cases hr : r.1 <;> (rw [hr] at h; cases h)
    · exact h.symm
  · exact fun h => .inr h.symm

theorem Line.legal (d : Line (List UInt8)) : (∀ w, .word w ∈ d.toks → GoodWord w) → d.Fits → d.cmd.Legal := by
  refine @Line.rec (List UInt8) (fun d => (∀ w, .word w ∈ d.toks → GoodWord w) → d.Fits → d.cmd.Legal)
    (fun p => (∀ w, .word w ∈ p.toks → GoodWord w) → p.Fits → p.cmd.Legal)
    (fun e => (∀ w, .word w ∈ e.toks → GoodWord w) → e.Fits → e.cmd.Legal) ?last ?seq ?one ?cons ?block ?simple d
  case last =>
    intro p n ih hgood hfits
    exact legal_back n (ih (fun w hw => hgood w (List.mem_append_left _ hw)) hfits)
  case seq =>
    intro p n l ihp ihl hgood hfits
    refine ⟨legal_back n (ihp (fun w hw => hgood w (List.mem_append_left _ hw)) hfits.1), ihl (fun w hw => hgood w ?_) hfits.2⟩
    exact List.mem_append_right _ (List.mem_append_right _ (List.mem_cons_of_mem _ hw))
  case one =>
    intro e ih hgood hfits
    exact ih hgood hfits
  case cons =>
    intro e p ihe ihp hgood hfits
    refine ⟨ihe (fun w hw => hgood w (List.mem_append_left _ hw)) hfits.1, ihp (fun w hw => hgood w ?_) hfits.2⟩
    exact List.mem_append_right _ (List.mem_cons_of_mem _ hw)
  case block =>
    intro l rs ih hgood hfits
    refine legal_wrap (ih (fun w hw => hgood w ?_) hfits) fun r hr => hgood r.2 ?_
    · exact List.mem_cons_of_mem _ (List.mem_append_left _ hw)
    · exact List.mem_cons_of_mem _ (List.mem_append_right _ (List.mem_cons_of_mem _ (mem_redirToks_iff.2 ⟨r, hr, rfl⟩)))
  case simple =>
    intro rs args hgood hfits
    refine legal_wrap ⟨?_, fun w hw => hgood w ?_⟩ fun r hr => hgood r.2 ?_
    · rw [List.length_map]
      exact hfits
    · obtain ⟨a, ha, rfl⟩ := List.mem_map.1 hw
      exact List.mem_append_right _ (List.mem_flatMap.2 ⟨a, ha, List.mem_cons_self⟩)
    · rcases List.mem_append.1 hr with hr | hr
      · exact List.mem_append_left _ (mem_redirToks_iff.2 ⟨r, hr, rfl⟩)
      · obtain ⟨a, ha, hra⟩ := List.mem_flatMap.1 hr
        exact List.mem_append_right _
          (List.mem_flatMap.2 ⟨a, ha, List.mem_cons_of_mem _ (mem_redirToks_iff.2 ⟨r, hra, rfl⟩)⟩)

/-- The trees of the lines are the legal ones, and each of them is read back from what is printed for it. -/
theorem parse_print (c : Cmd (List UInt8)) :
    (c.Legal → parse c.print = .ok c) ∧ (c.Legal ↔ ∃ line, 0 ∉ line ∧ parse line = .ok c) := by
  have hprint : c.Legal → 0 ∉ c.print ∧ parse c.print = .ok c := by
    intro h
    have h0 : 0 ∉ c.print := zero_notMem_printToks (Cmd.derive_good h)
    exact ⟨h0, (parse_ok_iff h0 c).2 ⟨c.derive, lexes_printToks (Cmd.derive_good h), Cmd.derive_fits h, Cmd.derive_cmd h⟩⟩
  refine ⟨fun h => (hprint h).2, fun h => ⟨c.print, hprint h⟩, ?_⟩
  rintro ⟨line, h0, hparse⟩
  obtain ⟨d, hlex, hfits, rfl⟩ := (parse_ok_iff h0 c).1 hparse
  exact d.legal (fun w hw => hlex.good h0 hw) hfits

/-- A pipe in the background, from the line `( ( ls ) | ( ( wc -l ) > out ) ) & ` that is printed for it and from a shorter one. -/
example :
    let str := fun s : String => s.toList.map Char.toUInt8
    let c : Cmd (List UInt8) := .back (.pipe (.exec [str "ls"]) (.redir (.exec [str "wc", str "-l"]) (str "out") 0x601 1))
    parse c.print = .ok c ∧ parse (str "ls|wc -l>out&") = .ok c := by
  decide +kernel

end Sh

end Xv6
