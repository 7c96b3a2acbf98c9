import Xv6.ShToken

/-!
# The grammar of the shell

The parser of `sh.c` returns exactly when the tokens are those of a syntax tree `Line` whose commands have fewer than `MAXARGS` words,
and what it returns is the tree of commands that the syntax tree stands for; else it stops in `panic` (`parseline_sound`,
`parseline_complete`).  The calls and loops are finite: each of them has taken a token when it comes back to the same function.
-/

namespace Xv6

namespace Sh

open SysFile (O_RDONLY O_WRONLY O_CREATE O_TRUNC)

/-! ### Syntax trees -/

inductive RedirOp
  | input
  | output
  | append
  deriving DecidableEq

mutual

/-- `line ::= pipe '&'* [';' line]` -/
inductive Line (W : Type)
  | last (pipe : Pipe W) (backs : Nat)
  | seq (pipe : Pipe W) (backs : Nat) (rest : Line W)

/-- `pipe ::= exec ['|' pipe]` -/
inductive Pipe (W : Type)
  | one (exec : Exec W)
  | cons (exec : Exec W) (rest : Pipe W)

/-- `exec ::= '(' line ')' redirs | redirs (word redirs)*` with `redirs ::= (('<' | '>' | '>>') word)*` -/
inductive Exec (W : Type)
  | block (line : Line W) (rs : List (RedirOp × W))
  | simple (rs : List (RedirOp × W)) (args : List (W × List (RedirOp × W)))

end

section

variable {V W : Type}

def Redir.map (f : V → W) (r : Redir V) : Redir W := ⟨f r.file, r.mode, r.fd⟩

namespace RedirOp

def tok : RedirOp → Tok W
  | input => .sym '<'.toUInt8
  | output => .sym '>'.toUInt8
  | append => .sym '+'.toUInt8

/-- Mode and descriptor of the redirection. -/
def redir : RedirOp → W → Redir W
  | input, file => ⟨file, O_RDONLY, 0⟩
  | output, file => ⟨file, O_WRONLY ||| O_CREATE ||| O_TRUNC, 1⟩
  | append, file => ⟨file, O_WRONLY ||| O_CREATE, 1⟩

end RedirOp

def redirToks (rs : List (RedirOp × W)) : List (Tok W) := rs.flatMap fun r => [r.1.tok, .word r.2]

def argToks (args : List (W × List (RedirOp × W))) : List (Tok W) := args.flatMap fun a => .word a.1 :: redirToks a.2

def backToks (backs : Nat) : List (Tok W) := List.replicate backs (.sym '&'.toUInt8)

def redirs (rs : List (RedirOp × W)) : List (Redir W) := rs.map fun r => r.1.redir r.2

mutual

/-- The tokens of the tree, from left to right. -/
def Line.toks : Line W → List (Tok W)
  | .last pipe backs => pipe.toks ++ backToks backs
  | .seq pipe backs rest => pipe.toks ++ (backToks backs ++ .sym ';'.toUInt8 :: rest.toks)

def Pipe.toks : Pipe W → List (Tok W)
  | .one exec => exec.toks
  | .cons exec rest => exec.toks ++ .sym '|'.toUInt8 :: rest.toks

def Exec.toks : Exec W → List (Tok W)
  | .block line rs => .sym '('.toUInt8 :: (line.toks ++ .sym ')'.toUInt8 :: redirToks rs)
  | .simple rs args => redirToks rs ++ argToks args

end

mutual

/-- The command that the tree stands for. -/
def Line.cmd : Line W → Cmd W
  | .last pipe backs => Cmd.back^[backs] pipe.cmd
  | .seq pipe backs rest => .list (Cmd.back^[backs] pipe.cmd) rest.cmd

def Pipe.cmd : Pipe W → Cmd W
  | .one exec => exec.cmd
  | .cons exec rest => .pipe exec.cmd rest.cmd

def Exec.cmd : Exec W → Cmd W
  | .block line rs => wrap line.cmd (redirs rs)
  | .simple rs args => wrap (.exec (args.map (·.1))) (redirs (rs ++ args.flatMap (·.2)))

end

mutual

/-- Every command has fewer than `MAXARGS` words. -/
def Line.Fits : Line W → Prop
  | .last pipe _ => pipe.Fits
  | .seq pipe _ rest => pipe.Fits ∧ rest.Fits

def Pipe.Fits : Pipe W → Prop
  | .one exec => exec.Fits
  | .cons exec rest => exec.Fits ∧ rest.Fits

def Exec.Fits : Exec W → Prop
  | .block line _ => line.Fits
  | .simple _ args => args.length < MAXARGS

end

/-! ### Redirections -/

theorem map_wrap (f : V → W) (cmd : Cmd V) (rs : List (Redir V)) : (wrap cmd rs).map f = wrap (cmd.map f) (rs.map (Redir.map f)) := by
  induction rs generalizing cmd with
  | nil => rfl
  | cons r rs ih => exact ih _

/-- The tokens before a file name. -/
theorem RedirOp.tok_iff {c : UInt8} :
    (Tok.sym c : Tok W).starts ['<'.toUInt8, '>'.toUInt8] = true ↔ ∃ op : RedirOp, op.tok = (.sym c : Tok W) := by
  constructor
  · intro h
    simp only [Tok.starts, List.mem_cons, List.not_mem_nil, or_false, decide_eq_true_eq] at h
    by_cases hc : c = '+'.toUInt8
    · exact ⟨.append, by rw [hc]; rfl⟩
    · rw [if_neg hc] at h
      rcases h with rfl | rfl
      · exact ⟨.input, by rfl⟩
      · exact ⟨.output, by rfl⟩
  · rintro ⟨op, hop⟩
    rw [← hop]
    cases op <;> rfl

theorem map_redirOf {op : RedirOp} {c : UInt8} (f : V → W) (h : op.tok = (.sym c : Tok W)) (file : V) :
    (redirOf c file).map (Redir.map f) = [op.redir (f file)] := by
  cases op <;> (cases h; rfl)

end

/-! ### Looking at the next token -/

section

variable {W : Type} (f : Span → W) (s : Ptr)

/-- `peek` for one byte. -/
theorem peek_one {c : UInt8} (hc : c ∈ symbols) (hgt : c ≠ '>'.toUInt8) :
    (peek s [c] = (true, skip s) ∧ txt f s = .sym c :: txt f (gettoken s).2.2) ∨
      (peek s [c] = (false, skip s) ∧ ∀ r, txt f s ≠ .sym c :: r) := by
  have hone : ∀ d ∈ [c], d ∈ symbols := by simpa using hc
  rw [peek_eq f s hone]
  have hp : c ≠ '+'.toUInt8 := fun hp => absurd (hp ▸ hc) (by decide)
  by_cases hr : ∃ r, txt f s = .sym c :: r
  · obtain ⟨r, hr⟩ := hr
    left
    rw [(gettoken_of_sym hr).2.2.2]
    simp [hr, Tok.starts, hp]
  · right
    refine ⟨Prod.ext ?_ rfl, fun r h => hr ⟨r, h⟩⟩
    rw [Option.any_eq_false]
    intro t ht
    obtain ⟨r, htxt⟩ := List.head?_eq_some_iff.1 ht
    cases t with
    | word w => simp [Tok.starts]
    | sym d =>
      have hd : d ≠ c := fun hd => hr ⟨r, by rw [htxt, hd]⟩
      by_cases hdp : d = '+'.toUInt8
      · simp [Tok.starts, hdp, hgt.symm]
      · simp [Tok.starts, hdp, hd]

/-- `peek` before a redirection. -/
theorem peek_redir :
    (peek s ['<'.toUInt8, '>'.toUInt8] = (true, skip s) ∧ ∃ op : RedirOp, txt f s = op.tok :: txt f (gettoken s).2.2 ∧
        ∀ file, (redirOf (gettoken s).1 file).map (Redir.map f) = [op.redir (f file)]) ∨
      (peek s ['<'.toUInt8, '>'.toUInt8] = (false, skip s) ∧ ∀ (op : RedirOp) r, txt f s ≠ op.tok :: r) := by
  rw [peek_eq f s (by simp [symbols])]
  by_cases hpeek : (txt f s).head?.any (Tok.starts ['<'.toUInt8, '>'.toUInt8]) = true
  · left
    refine ⟨Prod.ext hpeek rfl, ?_⟩
    obtain ⟨t, ht, hstart⟩ := (Option.any_eq_true _ _).1 hpeek
    obtain ⟨r, hr⟩ := List.head?_eq_some_iff.1 ht
    cases t with
    | word w => cases hstart
    | sym c =>
      obtain ⟨op, hop⟩ := (RedirOp.tok_iff (W := W)).1 hstart
      obtain ⟨htok, -, -, hrest⟩ := gettoken_of_sym hr
      refine ⟨op, by rw [hr, hrest, hop], fun file => ?_⟩
      rw [htok, map_redirOf f hop]
  · right
    refine ⟨Prod.ext (by simpa using hpeek) rfl, fun op r h => hpeek ?_⟩
    rw [h]
    cases op <;> rfl

/-- `peek` for the end of a command. -/
theorem peek_end :
    (peek s ['|'.toUInt8, ')'.toUInt8, '&'.toUInt8, ';'.toUInt8] = (true, skip s) ∧ ∃ c r, txt f s = .sym c :: r) ∨
      (peek s ['|'.toUInt8, ')'.toUInt8, '&'.toUInt8, ';'.toUInt8] = (false, skip s) ∧
        ∀ t ∈ (txt f s).head?, t.starts ['|'.toUInt8, ')'.toUInt8, '&'.toUInt8, ';'.toUInt8] = false) := by
  rw [peek_eq f s (by simp [symbols])]
  by_cases hpeek : (txt f s).head?.any (Tok.starts ['|'.toUInt8, ')'.toUInt8, '&'.toUInt8, ';'.toUInt8]) = true
  · left
    refine ⟨Prod.ext hpeek rfl, ?_⟩
    obtain ⟨t, ht, hstart⟩ := (Option.any_eq_true _ _).1 hpeek
    obtain ⟨r, hr⟩ := List.head?_eq_some_iff.1 ht
    cases t with
    | word w => cases hstart
    | sym c => exact ⟨c, r, hr⟩
  · right
    refine ⟨Prod.ext (by simpa using hpeek) rfl, fun t ht => ?_⟩
    simpa [Option.mem_def.1 ht] using hpeek

end

/-! ### How a call ends -/

section

variable {α β : Type} {Q : Prop}

/-- The call returns a value in `P`, or it stops in `panic`, which is possible only if `Q`. -/
def Outcome (Q : Prop) : Except Stop α → (α → Prop) → Prop
  | .ok a, P => P a
  | .error (.panic _), _ => Q
  | .error .fuel, _ => False

theorem Outcome.bind {x : Except Stop α} {g : α → Except Stop β} {P : α → Prop} {R : β → Prop} (hx : Outcome Q x P)
    (hg : ∀ a, P a → Outcome Q (g a) R) : Outcome Q (x >>= g) R := by
  cases x with
  | ok a => exact hg a hx
  | error stop =>
    cases stop with
    | panic msg => exact hx
    | fuel => exact hx.elim

theorem Outcome.mono {x : Except Stop α} {P R : α → Prop} (hx : Outcome Q x P) (hR : ∀ a, P a → R a) : Outcome Q x R := by
  cases x with
  | ok a => exact hR a hx
  | error stop =>
    cases stop with
    | panic msg => exact hx
    | fuel => exact hx.elim

theorem Outcome.panic {P : α → Prop} (hQ : Q) (msg : String) : Outcome Q (throw (.panic msg) : Except Stop α) P := hQ

theorem Outcome.ok {x : Except Stop α} {P : α → Prop} {a : α} (h : Outcome Q x P) (hx : x = .ok a) : P a := by
  rw [hx] at h
  exact h

end

/-! ### What is returned is derived -/

section

variable {W : Type} (f : Span → W)

/-- The rest of the line has one token less after `gettoken`. -/
theorem length_of_cons {s s' : Ptr} {t : Tok W} (h : txt f s = t :: txt f s') : (txt f s).length = (txt f s').length + 1 := by
  rw [h, List.length_cons]

theorem length_of_append {s s' : Ptr} {ts : List (Tok W)} (h : txt f s = ts ++ txt f s') : (txt f s').length ≤ (txt f s).length := by
  rw [h, List.length_append]
  omega

theorem parseredirs_sound {fuel : Nat} {s : Ptr} (hfuel : (txt f s).length < fuel) :
    Outcome True (parseredirs fuel s) fun x => ∃ rs, txt f s = redirToks rs ++ txt f x.2 ∧ x.1.map (Redir.map f) = redirs rs := by
  induction fuel generalizing s with
  | zero => omega
  | succ fuel ih =>
    rw [parseredirs]
    rcases peek_redir f s with ⟨hpeek, op, hop, hredir⟩ | ⟨hpeek, -⟩
    · simp only [hpeek, if_true, gettoken_skip]
      by_cases hw : (gettoken (gettoken s).2.2).1 = 'a'.toUInt8
      · rw [if_neg (by simpa using hw)]
        have hword := txt_of_word (f := f) hw
        have h1 := length_of_cons f hop
        have h2 := length_of_cons f hword
        have hlt : (txt f (gettoken (gettoken s).2.2).2.2).length < fuel := by omega
        refine Outcome.bind (ih hlt) fun x hx => ?_
        obtain ⟨rs, htoks, hmap⟩ := hx
        refine ⟨(op, f (gettoken (gettoken s).2.2).2.1) :: rs, ?_, ?_⟩
        · rw [hop, hword, htoks]
          rfl
        · rw [List.map_append, hmap, hredir]
          rfl
      · rw [if_pos hw]
        exact Outcome.panic trivial _
    · simp only [hpeek]
      exact ⟨[], by simp [redirToks], rfl⟩

theorem argsLoop_sound {fuel : Nat} {s : Ptr} {argv : List Span} {more : List (Redir Span)} (hfuel : (txt f s).length < fuel)
    (hargv : argv.length < MAXARGS) :
    Outcome True (argsLoop fuel argv more s) fun x => ∃ args : List (W × List (RedirOp × W)), txt f s = argToks args ++ txt f x.2.2 ∧
      x.1.map f = argv.map f ++ args.map (·.1) ∧
      x.2.1.map (Redir.map f) = more.map (Redir.map f) ++ redirs (args.flatMap (·.2)) ∧ x.1.length < MAXARGS := by
  induction fuel generalizing s argv more with
  | zero => omega
  | succ fuel ih =>
    have hnone : ∀ s', txt f s' = txt f s → Outcome True (pure (argv, more, s') : Except Stop _) fun x =>
        ∃ args : List (W × List (RedirOp × W)), txt f s = argToks args ++ txt f x.2.2 ∧ x.1.map f = argv.map f ++ args.map (·.1) ∧
        x.2.1.map (Redir.map f) = more.map (Redir.map f) ++ redirs (args.flatMap (·.2)) ∧ x.1.length < MAXARGS := fun s' hs' =>
      ⟨[], by simp [argToks, hs'], by simp, by simp [redirs], hargv⟩
    rw [argsLoop]
    rcases peek_end f s with ⟨hpeek, -⟩ | ⟨hpeek, -⟩
    · simp only [hpeek, if_true]
      exact hnone _ (txt_skip ..)
    · simp only [hpeek, gettoken_skip, Bool.false_eq_true, if_false]
      by_cases h0 : (gettoken s).1 = 0
      · rw [if_pos h0]
        refine hnone _ ?_
        by_cases hs : skip s = []
        · rw [gettoken_nil hs, txt_nil f hs, txt_nil f rfl]
        · obtain ⟨c, r, hr⟩ := List.exists_cons_of_ne_nil hs
          exact absurd h0 (gettoken_found hr).span.1
      · rw [if_neg h0]
        by_cases hw : (gettoken s).1 = 'a'.toUInt8
        · rw [if_neg (by simpa using hw)]
          by_cases hmax : argv.length + 1 ≥ MAXARGS
          · rw [if_pos hmax]
            exact Outcome.panic trivial _
          · rw [if_neg hmax]
            have hword := txt_of_word (f := f) hw
            have h1 := length_of_cons f hword
            have hlt : (txt f (gettoken s).2.2).length < fuel := by omega
            refine Outcome.bind (parseredirs_sound f hlt) fun x hx => ?_
            obtain ⟨rs, htoks, hmap⟩ := hx
            have h2 : (txt f x.2).length ≤ (txt f (gettoken s).2.2).length := length_of_append f htoks
            have hlt' : (txt f x.2).length < fuel := by omega
            have hlen : (argv ++ [(gettoken s).2.1]).length < MAXARGS := by simp; omega
            refine Outcome.mono (ih hlt' hlen) fun y hy => ?_
            obtain ⟨args, hargs, hmap1, hmap2, hfits⟩ := hy
            refine ⟨(f (gettoken s).2.1, rs) :: args, ?_, ?_, ?_, hfits⟩
            · rw [hword, htoks, hargs]
              simp [argToks]
            · rw [hmap1]
              simp
            · rw [hmap2, List.map_append, hmap]
              simp [redirs]
        · rw [if_pos hw]
          exact Outcome.panic trivial _

theorem backsLoop_sound {fuel : Nat} {s : Ptr} {cmd : Cmd Span} (hfuel : (txt f s).length < fuel) :
    Outcome True (backsLoop fuel cmd s) fun x => ∃ n, txt f s = backToks n ++ txt f x.2 ∧ x.1.map f = Cmd.back^[n] (cmd.map f) := by
  induction fuel generalizing s cmd with
  | zero => omega
  | succ fuel ih =>
    rw [backsLoop]
    rcases peek_one f s (c := '&'.toUInt8) (by decide) (by decide) with ⟨hpeek, htok⟩ | ⟨hpeek, -⟩
    · simp only [hpeek, if_true, gettoken_skip]
      have h1 := length_of_cons f htok
      have hlt : (txt f (gettoken s).2.2).length < fuel := by omega
      refine Outcome.mono (ih hlt) fun x hx => ?_
      obtain ⟨n, htoks, hmap⟩ := hx
      refine ⟨n + 1, ?_, hmap⟩
      rw [htok, htoks]
      rfl
    · simp only [hpeek]
      exact ⟨0, by simp [backToks], rfl⟩

/-- The functions of a line, of a pipe and of a command, with fuel for the tokens that are left. -/
theorem parse_sound (fuel : Nat) :
    (∀ s, 4 * (txt f s).length + 4 ≤ fuel → Outcome True (parseline fuel s) fun x => ∃ d : Line W,
      txt f s = d.toks ++ txt f x.2 ∧ x.1.map f = d.cmd ∧ d.Fits) ∧
    (∀ s, 4 * (txt f s).length + 3 ≤ fuel → Outcome True (parsepipe fuel s) fun x => ∃ d : Pipe W,
      txt f s = d.toks ++ txt f x.2 ∧ x.1.map f = d.cmd ∧ d.Fits) ∧
    (∀ s, 4 * (txt f s).length + 2 ≤ fuel → Outcome True (parseexec fuel s) fun x => ∃ d : Exec W,
      txt f s = d.toks ++ txt f x.2 ∧ x.1.map f = d.cmd ∧ d.Fits) ∧
    (∀ s, 4 * (txt f s).length + 1 ≤ fuel → Outcome True (parseblock fuel s) fun x => ∃ d : Exec W,
      txt f s = d.toks ++ txt f x.2 ∧ x.1.map f = d.cmd ∧ d.Fits) := by
  induction fuel with
  | zero => refine ⟨?_, ?_, ?_, ?_⟩ <;> (intro s hs; omega)
  | succ fuel ih =>
    obtain ⟨ihline, ihpipe, ihexec, ihblock⟩ := ih
    refine ⟨?line, ?pipe, ?exec, ?block⟩
    case line =>
      intro s hs
      rw [parseline]
      refine Outcome.bind (ihpipe s (by omega)) fun x hx => ?_
      obtain ⟨p, hp, hcmd, hfits⟩ := hx
      have h1 := length_of_append f hp
      have hlt : (txt f x.2).length < fuel := by omega
      refine Outcome.bind (backsLoop_sound f hlt) fun y hy => ?_
      obtain ⟨n, hn, hback⟩ := hy
      have h2 := length_of_append f hn
      rw [hcmd] at hback
      rcases peek_one f y.2 (c := ';'.toUInt8) (by decide) (by decide) with ⟨hpeek, htok⟩ | ⟨hpeek, -⟩
      · simp only [hpeek, if_true, gettoken_skip]
        have h3 := length_of_cons f htok
        have hle : 4 * (txt f (gettoken y.2).2.2).length + 4 ≤ fuel := by omega
        refine Outcome.bind (ihline _ hle) fun z hz => ?_
        obtain ⟨l, hl, hcmd', hfits'⟩ := hz
        refine ⟨.seq p n l, ?_, ?_, hfits, hfits'⟩
        · rw [hp, hn, htok, hl, Line.toks]
          simp
        · rw [Line.cmd, Cmd.map, hback, hcmd']
      · simp only [hpeek]
        refine ⟨.last p n, ?_, ?_, hfits⟩
        · rw [hp, hn, Line.toks]
          simp
        · rw [Line.cmd, ← hback]
    case pipe =>
      intro s hs
      rw [parsepipe]
      refine Outcome.bind (ihexec s (by omega)) fun x hx => ?_
      obtain ⟨e, he, hcmd, hfits⟩ := hx
      have h1 := length_of_append f he
      rcases peek_one f x.2 (c := '|'.toUInt8) (by decide) (by decide) with ⟨hpeek, htok⟩ | ⟨hpeek, -⟩
      · simp only [hpeek, if_true, gettoken_skip]
        have h3 := length_of_cons f htok
        have hle : 4 * (txt f (gettoken x.2).2.2).length + 3 ≤ fuel := by omega
        refine Outcome.bind (ihpipe _ hle) fun z hz => ?_
        obtain ⟨p, hp, hcmd', hfits'⟩ := hz
        refine ⟨.cons e p, ?_, ?_, hfits, hfits'⟩
        · rw [he, htok, hp, Pipe.toks]
          simp
        · rw [Pipe.cmd, Cmd.map, hcmd, hcmd']
      · simp only [hpeek]
        refine ⟨.one e, ?_, ?_, hfits⟩
        · rw [he, Pipe.toks, txt_skip]
        · rw [Pipe.cmd, ← hcmd]
    case exec =>
      intro s hs
      rw [parseexec]
      rcases peek_one f s (c := '('.toUInt8) (by decide) (by decide) with ⟨hpeek, htok⟩ | ⟨hpeek, -⟩
      · simp only [hpeek, if_true]
        have := ihblock (skip s) (by rw [txt_skip]; omega)
        rwa [txt_skip] at this
      · simp only [hpeek]
        have hlt : (txt f (skip s)).length < fuel := by rw [txt_skip]; omega
        refine Outcome.bind (parseredirs_sound f hlt) fun x hx => ?_
        obtain ⟨rs, hrs, hmap⟩ := hx
        have h1 := length_of_append f hrs
        have hlt' : (txt f x.2).length < fuel := by omega
        refine Outcome.bind (argsLoop_sound f hlt' (by decide)) fun y hy => ?_
        obtain ⟨args, hargs, hargv, hmore, hlen⟩ := hy
        refine ⟨.simple rs args, ?_, ?_, ?_⟩
        · rw [← txt_skip f s, hrs, hargs, Exec.toks, List.append_assoc]
        · rw [map_wrap, Cmd.map, hargv, hmore, hmap, Exec.cmd]
          simp [redirs]
        · have := congrArg List.length hargv
          simp only [List.length_map, List.map_nil, List.nil_append] at this
          show args.length < MAXARGS
          omega
    case block =>
      intro s hs
      rw [parseblock]
      rcases peek_one f s (c := '('.toUInt8) (by decide) (by decide) with ⟨hpeek, htok⟩ | ⟨hpeek, -⟩
      · simp only [hpeek, gettoken_skip]
        have h1 := length_of_cons f htok
        have hle : 4 * (txt f (gettoken s).2.2).length + 4 ≤ fuel := by omega
        refine Outcome.bind (ihline _ hle) fun x hx => ?_
        obtain ⟨l, hl, hcmd, hfits⟩ := hx
        have h2 := length_of_append f hl
        rcases peek_one f x.2 (c := ')'.toUInt8) (by decide) (by decide) with ⟨hpeek', htok'⟩ | ⟨hpeek', -⟩
        · simp only [hpeek', gettoken_skip]
          have h3 := length_of_cons f htok'
          have hlt : (txt f (gettoken x.2).2.2).length < fuel := by omega
          refine Outcome.bind (parseredirs_sound f hlt) fun y hy => ?_
          obtain ⟨rs, hrs, hmap⟩ := hy
          refine ⟨.block l rs, ?_, ?_, hfits⟩
          · rw [htok, hl, htok', hrs, Exec.toks]
            simp
          · rw [map_wrap, hcmd, hmap, Exec.cmd]
        · simp only [hpeek']
          exact Outcome.panic trivial _
      · simp only [hpeek]
        exact Outcome.panic trivial _

end

/-! ### What is derived is returned -/

section

variable {W : Type}

/-- What comes next, if anything, is one of these. -/
def Ends (syms : List UInt8) (r : List (Tok W)) : Prop := ∀ t ∈ r.head?, t.starts syms = true

theorem ends_nil (syms : List UInt8) : Ends syms ([] : List (Tok W)) := by
  intro t ht
  simp at ht

theorem ends_cons {syms : List UInt8} {t : Tok W} {r : List (Tok W)} (ht : t.starts syms = true) : Ends syms (t :: r) := by
  intro u hu
  simp only [List.head?_cons, Option.mem_def, Option.some.injEq] at hu
  rwa [← hu]

theorem Ends.mono {syms syms' : List UInt8} {r : List (Tok W)} (h : Ends syms r) (hsub : ∀ c ∈ syms, c ∈ syms') : Ends syms' r := by
  intro t ht
  have hstart := h t ht
  cases t with
  | word w => cases hstart
  | sym c =>
    simp only [Tok.starts, decide_eq_true_eq] at hstart ⊢
    exact hsub _ hstart

theorem Ends.ne {syms : List UInt8} {r r' : List (Tok W)} {t : Tok W} (h : Ends syms r) (ht : t.starts syms = false) : r ≠ t :: r' := by
  rintro rfl
  rw [h t rfl] at ht
  cases ht

/-- After a line. -/
def afterLine : List UInt8 := [')'.toUInt8]

/-- After a pipe. -/
def afterPipe : List UInt8 := [')'.toUInt8, '&'.toUInt8, ';'.toUInt8]

/-- After a command. -/
def afterExec : List UInt8 := ['|'.toUInt8, ')'.toUInt8, '&'.toUInt8, ';'.toUInt8]

theorem RedirOp.starts_afterExec (op : RedirOp) : (op.tok : Tok W).starts afterExec = false := by
  cases op <;> rfl

theorem ends_backs {r : List (Tok W)} (n : Nat) (hr : Ends afterPipe r) : Ends afterPipe (backToks n ++ r) := by
  cases n with
  | zero => exact hr
  | succ n => exact ends_cons rfl

theorem RedirOp.tok_inj {op op' : RedirOp} (h : (op.tok : Tok W) = op'.tok) : op = op' := by
  cases op <;> cases op' <;> first | rfl | exact absurd (Tok.sym.inj h) (by decide)

/-- No redirection comes before the arguments that are left. -/
theorem argToks_ne {args : List (W × List (RedirOp × W))} {r : List (Tok W)} (hr : Ends afterExec r) (op : RedirOp)
    (r' : List (Tok W)) : argToks args ++ r ≠ op.tok :: r' := by
  intro h
  cases args with
  | nil => exact hr.ne op.starts_afterExec h
  | cons b args => cases op <;> cases h

variable (f : Span → W)

theorem parseredirs_complete {fuel : Nat} {s : Ptr} {rs : List (RedirOp × W)} {r : List (Tok W)} (hs : txt f s = redirToks rs ++ r)
    (hr : ∀ (op : RedirOp) r', r ≠ op.tok :: r') (hfuel : (txt f s).length < fuel) :
    Outcome False (parseredirs fuel s) fun x => txt f x.2 = r ∧ x.1.map (Redir.map f) = redirs rs := by
  induction rs generalizing s fuel with
  | nil =>
    cases fuel with
    | zero => omega
    | succ fuel =>
      rw [parseredirs]
      rcases peek_redir f s with ⟨-, op, hop, -⟩ | ⟨hpeek, -⟩
      · rw [hs] at hop
        exact absurd hop (hr op _)
      · simp only [hpeek]
        exact ⟨by rw [txt_skip, hs]; rfl, rfl⟩
  | cons a rs ih =>
    obtain ⟨op, w⟩ := a
    have hcons : txt f s = op.tok :: .word w :: (redirToks rs ++ r) := hs
    cases fuel with
    | zero => omega
    | succ fuel =>
      rw [parseredirs]
      rcases peek_redir f s with ⟨hpeek, op', hop, hredir⟩ | ⟨-, hno⟩
      · rw [hcons, List.cons.injEq] at hop
        obtain ⟨htok, hnext⟩ := hop
        obtain ⟨hw, hfile, hrest⟩ := gettoken_of_word hnext.symm
        simp only [hpeek, if_true, gettoken_skip]
        rw [if_neg (by simpa using hw)]
        have hlt : (txt f (gettoken (gettoken s).2.2).2.2).length < fuel := by
          rw [hrest]
          rw [hcons, List.length_cons, List.length_cons] at hfuel
          omega
        refine Outcome.bind (ih hrest hlt) fun x hx => ?_
        obtain ⟨hx, hmap⟩ := hx
        refine ⟨hx, ?_⟩
        rw [List.map_append, hmap, hredir, hfile, ← RedirOp.tok_inj htok]
        rfl
      · exact absurd hcons (hno op _)

theorem argsLoop_complete {fuel : Nat} {s : Ptr} {argv : List Span} {more : List (Redir Span)} {args : List (W × List (RedirOp × W))}
    {r : List (Tok W)} (hs : txt f s = argToks args ++ r) (hr : Ends afterExec r) (hfits : argv.length + args.length < MAXARGS)
    (hfuel : (txt f s).length < fuel) :
    Outcome False (argsLoop fuel argv more s) fun x => txt f x.2.2 = r ∧ x.1.map f = argv.map f ++ args.map (·.1) ∧
      x.2.1.map (Redir.map f) = more.map (Redir.map f) ++ redirs (args.flatMap (·.2)) := by
  induction args generalizing s fuel argv more with
  | nil =>
    have hs' : txt f s = r := hs
    cases fuel with
    | zero => omega
    | succ fuel =>
      rw [argsLoop]
      rcases peek_end f s with ⟨hpeek, -⟩ | ⟨hpeek, hno⟩
      · simp only [hpeek, if_true]
        exact ⟨by rw [txt_skip, hs'], by simp, by simp [redirs]⟩
      · have hnil : txt f s = [] := by
          cases hr' : txt f s with
          | nil => rfl
          | cons t ts =>
            have hstart := hr t (by rw [← hs', hr']; rfl)
            rw [show t.starts afterExec = false from hno t (by rw [hr']; rfl)] at hstart
            cases hstart
        have hskip := skip_of_txt hnil
        simp only [hpeek, gettoken_skip, gettoken_nil hskip]
        exact ⟨by rw [← hs', hnil, txt_nil f rfl], by simp, by simp [redirs]⟩
  | cons a args ih =>
    obtain ⟨w, rs⟩ := a
    have hcons : txt f s = .word w :: (redirToks rs ++ (argToks args ++ r)) := by
      rw [hs]
      simp [argToks]
    obtain ⟨hw, harg, hrest⟩ := gettoken_of_word hcons
    cases fuel with
    | zero => omega
    | succ fuel =>
      rw [argsLoop]
      rcases peek_end f s with ⟨-, c, r', hc⟩ | ⟨hpeek, -⟩
      · rw [hcons] at hc
        cases hc
      · have ha0 : 'a'.toUInt8 ≠ 0 := by decide
        simp only [List.length_cons] at hfits
        simp only [hpeek, gettoken_skip, Bool.false_eq_true, if_false, hw, if_neg ha0, ne_eq, not_true_eq_false]
        rw [if_neg (show ¬(argv.length + 1 ≥ MAXARGS) by omega)]
        rw [hcons, List.length_cons, ← hrest] at hfuel
        have hlt : (txt f (gettoken s).2.2).length < fuel := by omega
        refine Outcome.bind (parseredirs_complete f hrest (argToks_ne hr) hlt) fun x hx => ?_
        obtain ⟨hx, hmap⟩ := hx
        have hlt' : (txt f x.2).length < fuel := by
          rw [hrest, List.length_append] at hlt
          rw [hx]
          omega
        have hfits' : (argv ++ [(gettoken s).2.1]).length + args.length < MAXARGS := by
          rw [List.length_append, List.length_singleton]
          omega
        refine Outcome.mono (ih hx hfits' hlt') fun y hy => ?_
        obtain ⟨hy, hmap1, hmap2⟩ := hy
        refine ⟨hy, ?_, ?_⟩
        · rw [hmap1]
          simp [harg]
        · rw [hmap2, List.map_append, hmap]
          simp [redirs]

theorem backsLoop_complete {fuel n : Nat} {s : Ptr} {cmd : Cmd Span} {r : List (Tok W)} (hs : txt f s = backToks n ++ r)
    (hr : ∀ r', r ≠ .sym '&'.toUInt8 :: r') (hfuel : (txt f s).length < fuel) :
    Outcome False (backsLoop fuel cmd s) fun x => txt f x.2 = r ∧ x.1.map f = Cmd.back^[n] (cmd.map f) := by
  induction n generalizing s fuel cmd with
  | zero =>
    cases fuel with
    | zero => omega
    | succ fuel =>
      rw [backsLoop]
      rcases peek_one f s (c := '&'.toUInt8) (by decide) (by decide) with ⟨-, htok⟩ | ⟨hpeek, -⟩
      · rw [hs] at htok
        exact absurd htok (hr _)
      · simp only [hpeek]
        exact ⟨by rw [txt_skip, hs]; rfl, rfl⟩
  | succ n ih =>
    have hcons : txt f s = .sym '&'.toUInt8 :: (backToks n ++ r) := hs
    cases fuel with
    | zero => omega
    | succ fuel =>
      rw [backsLoop]
      rcases peek_one f s (c := '&'.toUInt8) (by decide) (by decide) with ⟨hpeek, htok⟩ | ⟨-, hno⟩
      · simp only [hpeek, if_true, gettoken_skip]
        have hrest := (gettoken_of_sym hcons).2.2.2
        rw [hcons, List.length_cons, ← hrest] at hfuel
        exact ih hrest (by omega)
      · exact absurd hcons (hno _)

theorem parse_complete (fuel : Nat) :
    (∀ s (d : Line W) r, txt f s = d.toks ++ r → Ends afterLine r → d.Fits → 4 * (txt f s).length + 4 ≤ fuel →
      Outcome False (parseline fuel s) fun x => txt f x.2 = r ∧ x.1.map f = d.cmd) ∧
    (∀ s (d : Pipe W) r, txt f s = d.toks ++ r → Ends afterPipe r → d.Fits → 4 * (txt f s).length + 3 ≤ fuel →
      Outcome False (parsepipe fuel s) fun x => txt f x.2 = r ∧ x.1.map f = d.cmd) ∧
    (∀ s (d : Exec W) r, txt f s = d.toks ++ r → Ends afterExec r → d.Fits → 4 * (txt f s).length + 2 ≤ fuel →
      Outcome False (parseexec fuel s) fun x => txt f x.2 = r ∧ x.1.map f = d.cmd) ∧
    (∀ s (l : Line W) rs r, txt f s = (Exec.block l rs).toks ++ r → Ends afterExec r → l.Fits → 4 * (txt f s).length + 1 ≤ fuel →
      Outcome False (parseblock fuel s) fun x => txt f x.2 = r ∧ x.1.map f = (Exec.block l rs).cmd) := by
  induction fuel with
  | zero => refine ⟨?_, ?_, ?_, ?_⟩ <;> (intros; omega)
  | succ fuel ih =>
    obtain ⟨ihline, ihpipe, ihexec, ihblock⟩ := ih
    refine ⟨?line, ?pipe, ?exec, ?block⟩
    case line =>
      intro s d r hs hr hfits hfuel
      rw [parseline]
      cases d with
      | last p n =>
        have htoks : txt f s = p.toks ++ (backToks n ++ r) := by
          rw [hs, Line.toks, List.append_assoc]
        have hr' : Ends afterPipe r := hr.mono (by simp [afterLine, afterPipe])
        refine Outcome.bind (ihpipe s p _ htoks (ends_backs n hr') hfits (by omega)) fun x hx => ?_
        obtain ⟨hx, hcmd⟩ := hx
        have hlt : (txt f x.2).length < fuel := by
          have := congrArg List.length htoks
          rw [List.length_append, ← hx] at this
          omega
        refine Outcome.bind (backsLoop_complete f hx (fun r' => hr.ne rfl) hlt) fun y hy => ?_
        obtain ⟨hy, hback⟩ := hy
        rcases peek_one f y.2 (c := ';'.toUInt8) (by decide) (by decide) with ⟨-, htok⟩ | ⟨hpeek, -⟩
        · rw [hy] at htok
          exact absurd htok (hr.ne rfl)
        · simp only [hpeek]
          exact ⟨by rw [txt_skip, hy], by rw [hback, hcmd, Line.cmd]⟩
      | seq p n l =>
        have htoks : txt f s = p.toks ++ (backToks n ++ .sym ';'.toUInt8 :: (l.toks ++ r)) := by
          rw [hs, Line.toks]
          simp
        refine Outcome.bind (ihpipe s p _ htoks (ends_backs n (ends_cons rfl)) hfits.1 (by omega)) fun x hx => ?_
        obtain ⟨hx, hcmd⟩ := hx
        have hlt : (txt f x.2).length ≤ (txt f s).length := by
          rw [htoks, List.length_append, hx]
          omega
        refine Outcome.bind (backsLoop_complete f hx (by intro r' h; cases h) (by omega)) fun y hy => ?_
        obtain ⟨hy, hback⟩ := hy
        have hrest := (gettoken_of_sym hy).2.2.2
        rcases peek_one f y.2 (c := ';'.toUInt8) (by decide) (by decide) with ⟨hpeek, -⟩ | ⟨-, hno⟩
        · simp only [hpeek, if_true, gettoken_skip]
          have hle : 4 * (txt f (gettoken y.2).2.2).length + 4 ≤ fuel := by
            rw [hrest]
            rw [hx, List.length_append, List.length_cons] at hlt
            omega
          refine Outcome.bind (ihline _ l r hrest hr hfits.2 hle) fun z hz => ?_
          obtain ⟨hz, hcmd'⟩ := hz
          exact ⟨hz, by rw [Cmd.map, hback, hcmd, hcmd', Line.cmd]⟩
        · exact absurd hy (hno _)
    case pipe =>
      intro s d r hs hr hfits hfuel
      rw [parsepipe]
      cases d with
      | one e =>
        have htoks : txt f s = e.toks ++ r := by rw [hs, Pipe.toks]
        refine Outcome.bind (ihexec s e r htoks (hr.mono (by simp [afterPipe, afterExec])) hfits (by omega)) fun x hx => ?_
        obtain ⟨hx, hcmd⟩ := hx
        rcases peek_one f x.2 (c := '|'.toUInt8) (by decide) (by decide) with ⟨-, htok⟩ | ⟨hpeek, -⟩
        · rw [hx] at htok
          exact absurd htok (hr.ne rfl)
        · simp only [hpeek]
          exact ⟨by rw [txt_skip, hx], by rw [hcmd, Pipe.cmd]⟩
      | cons e p =>
        have htoks : txt f s = e.toks ++ .sym '|'.toUInt8 :: (p.toks ++ r) := by
          rw [hs, Pipe.toks]
          simp
        refine Outcome.bind (ihexec s e _ htoks (ends_cons rfl) hfits.1 (by omega)) fun x hx => ?_
        obtain ⟨hx, hcmd⟩ := hx
        have hrest := (gettoken_of_sym hx).2.2.2
        rcases peek_one f x.2 (c := '|'.toUInt8) (by decide) (by decide) with ⟨hpeek, -⟩ | ⟨-, hno⟩
        · simp only [hpeek, if_true, gettoken_skip]
          have hle : 4 * (txt f (gettoken x.2).2.2).length + 3 ≤ fuel := by
            rw [hrest]
            rw [htoks, List.length_append, List.length_cons] at hfuel
            omega
          refine Outcome.bind (ihpipe _ p r hrest hr hfits.2 hle) fun z hz => ?_
          obtain ⟨hz, hcmd'⟩ := hz
          exact ⟨hz, by rw [Cmd.map, hcmd, hcmd', Pipe.cmd]⟩
        · exact absurd hx (hno _)
    case exec =>
      intro s d r hs hr hfits hfuel
      rw [parseexec]
      cases d with
      | block l rs =>
        rcases peek_one f s (c := '('.toUInt8) (by decide) (by decide) with ⟨hpeek, -⟩ | ⟨-, hno⟩
        · simp only [hpeek, if_true]
          exact ihblock (skip s) l rs r (by rw [txt_skip, hs]) hr hfits (by rw [txt_skip]; omega)
        · rw [Exec.toks] at hs
          exact absurd hs (hno _)
      | simple rs args =>
        have htoks : txt f (skip s) = redirToks rs ++ (argToks args ++ r) := by
          rw [txt_skip, hs, Exec.toks, List.append_assoc]
        have hstart : ∀ r', txt f s ≠ .sym '('.toUInt8 :: r' := by
          intro r' h
          rw [← txt_skip, htoks] at h
          cases rs with
          | cons a rs =>
            obtain ⟨op, w⟩ := a
            cases op <;> cases h
          | nil =>
            cases args with
            | cons a args => cases h
            | nil => exact hr.ne rfl h
        rcases peek_one f s (c := '('.toUInt8) (by decide) (by decide) with ⟨-, htok⟩ | ⟨hpeek, -⟩
        · exact absurd htok (hstart _)
        · simp only [hpeek]
          have hlt : (txt f (skip s)).length < fuel := by rw [txt_skip]; omega
          refine Outcome.bind (parseredirs_complete f htoks (argToks_ne hr) hlt) fun x hx => ?_
          obtain ⟨hx, hmap⟩ := hx
          have hlt' : (txt f x.2).length < fuel := by
            rw [htoks, List.length_append] at hlt
            rw [hx]
            omega
          have hlen : ([] : List Span).length + args.length < MAXARGS := by
            rw [List.length_nil, Nat.zero_add]
            exact hfits
          refine Outcome.bind (argsLoop_complete f hx hr hlen hlt') fun y hy => ?_
          obtain ⟨hy, hargv, hmore⟩ := hy
          refine ⟨hy, ?_⟩
          rw [map_wrap, Cmd.map, hargv, hmore, hmap, Exec.cmd]
          simp [redirs]
    case block =>
      intro s l rs r hs hr hfits hfuel
      have htoks : txt f s = .sym '('.toUInt8 :: (l.toks ++ .sym ')'.toUInt8 :: (redirToks rs ++ r)) := by
        rw [hs, Exec.toks]
        simp
      have hrest := (gettoken_of_sym htoks).2.2.2
      rw [htoks, List.length_cons, List.length_append, List.length_cons] at hfuel
      rw [parseblock]
      rcases peek_one f s (c := '('.toUInt8) (by decide) (by decide) with ⟨hpeek, -⟩ | ⟨-, hno⟩
      · simp only [hpeek, gettoken_skip]
        have hle : 4 * (txt f (gettoken s).2.2).length + 4 ≤ fuel := by
          rw [hrest, List.length_append, List.length_cons]
          omega
        refine Outcome.bind (ihline _ l _ hrest (ends_cons rfl) hfits hle) fun x hx => ?_
        obtain ⟨hx, hcmd⟩ := hx
        have hrest' := (gettoken_of_sym hx).2.2.2
        rcases peek_one f x.2 (c := ')'.toUInt8) (by decide) (by decide) with ⟨hpeek', -⟩ | ⟨-, hno'⟩
        · simp only [hpeek', gettoken_skip]
          have hlt : (txt f (gettoken x.2).2.2).length < fuel := by
            rw [hrest']
            omega
          have hno : ∀ (op : RedirOp) r', r ≠ op.tok :: r' := fun op r' => hr.ne op.starts_afterExec
          refine Outcome.bind (parseredirs_complete f hrest' hno hlt) fun y hy => ?_
          obtain ⟨hy, hmap⟩ := hy
          exact ⟨hy, by rw [map_wrap, hcmd, hmap, Exec.cmd]⟩
        · exact absurd hx (hno' _)
      · exact absurd htoks (hno _)

end

end Sh

end Xv6
