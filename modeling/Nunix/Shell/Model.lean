/-
Nunix/Shell/Model.lean

The parser of the shell (sh.c).

A line lies in a buffer and ends with a zero byte; pointers into it are indices, and
`es` is the index of that byte.  The cursor `*ps` is the state of the parser, and a
`panic` ends the process.  The recursive descent has no bound in the source, so it runs
on fuel here and stops with `Stop.fuel` when that is used up.  Memory for the nodes of
the tree is taken to be there (`malloc` is not checked in the source).
-/
import Nunix.Bytes
import Nunix.Hoare

namespace Nunix.Shell

/-! ### Lines and tokens -/

/-- A string with its terminating zero byte. -/
structure Line where
  buf : Bytes
  es : ℕ
  nul : buf es = 0
  nonzero : ∀ i < es, buf i ≠ 0

def whitespace : List UInt8 := [' ', '\t', '\r', '\n', '\x0b'].map Char.toUInt8

def symbols : List UInt8 := ['<', '|', '>', '&', ';', '(', ')'].map Char.toUInt8

/-- `while(s < es && P(*s)) s++`, with `n` bytes left. -/
def scan (buf : Bytes) (P : UInt8 → Prop) [DecidablePred P] : ℕ → ℕ → ℕ
  | 0, s => s
  | n + 1, s => if P (buf s) then scan buf P n (s + 1) else s

/-- Skip whitespace. -/
def skip (line : Line) (s : ℕ) : ℕ := scan line.buf (· ∈ whitespace) (line.es - s) s

/-- Skip the rest of a word. -/
def skipWord (line : Line) (s : ℕ) : ℕ :=
  scan line.buf (fun c => c ∉ whitespace ∧ c ∉ symbols) (line.es - s) s

/-- What `gettoken` gives back: its value, the span of the token, and where the cursor is
left. -/
structure Token where
  ret : UInt8
  q : ℕ
  eq : ℕ
  next : ℕ

/-- The value of `gettoken` for a token at `s`, and where the token ends. -/
def tokenAt (line : Line) (s : ℕ) : UInt8 × ℕ :=
  let c := line.buf s
  if c = 0 then (c, s)
  else if c ∈ ['|', '(', ')', ';', '&', '<'].map Char.toUInt8 then (c, s + 1)
  else if c = Char.toUInt8 '>' then
    if line.buf (s + 1) = Char.toUInt8 '>' then (Char.toUInt8 '+', s + 2) else (c, s + 1)
  else (Char.toUInt8 'a', skipWord line s)

def token (line : Line) (s : ℕ) : Token :=
  let q := skip line s
  let t := tokenAt line q
  ⟨t.1, q, t.2, skip line t.2⟩

/-! ### The parser -/

/-- How a run ends without a tree. -/
inductive Stop where
  | fuel
  | panic (msg : String)
deriving DecidableEq

abbrev Parser : Type → Type := EStateM Stop ℕ

def gettoken (line : Line) : Parser Token := do
  let t := token line (← get)
  set t.next
  return t

def peek (line : Line) (toks : List UInt8) : Parser Bool := do
  let s := skip line (← get)
  set s
  return line.buf s ≠ 0 && line.buf s ∈ toks

/-- The nodes of the tree; a word is the span from its first byte to the byte after its
last. -/
inductive Cmd where
  | exec (argv : List (ℕ × ℕ))
  | redir (cmd : Cmd) (file efile mode fd : ℕ)
  | pipe (left right : Cmd)
  | list (left right : Cmd)
  | back (cmd : Cmd)
deriving DecidableEq

/-- fcntl.h -/
def O_RDONLY : ℕ := 0x000

@[inherit_doc O_RDONLY] def O_WRONLY : ℕ := 0x001

@[inherit_doc O_RDONLY] def O_CREATE : ℕ := 0x200

def MAXARGS : ℕ := 10

/-- `cmd->argv[argc] = q; cmd->eargv[argc] = eq`, where `cmd` is the node at the bottom of
the redirections made so far. -/
def Cmd.push (w : ℕ × ℕ) : Cmd → Cmd
  | exec argv => exec (argv ++ [w])
  | redir cmd file efile mode fd => redir (cmd.push w) file efile mode fd
  | cmd => cmd

/-- The node for the redirection `tok`. -/
def redircmd (tok : UInt8) (cmd : Cmd) (q eq : ℕ) : Cmd :=
  if tok = Char.toUInt8 '<' then .redir cmd q eq O_RDONLY 0
  else if tok = Char.toUInt8 '>' then .redir cmd q eq (O_WRONLY ||| O_CREATE) 1
  else if tok = Char.toUInt8 '+' then .redir cmd q eq (O_WRONLY ||| O_CREATE) 1
  else cmd

def parseredirs (line : Line) : ℕ → Cmd → Parser Cmd
  | 0, _ => throw .fuel
  | fuel + 1, cmd => do
    if ← peek line (['<', '>'].map Char.toUInt8) then
      let tok ← gettoken line
      let t ← gettoken line
      if t.ret ≠ Char.toUInt8 'a' then throw (.panic "missing file for redirection")
      else parseredirs line fuel (redircmd tok.ret cmd t.q t.eq)
    else return cmd

/-- The loop of `parseexec` over the words. -/
def wordsLoop (line : Line) : ℕ → ℕ → Cmd → Parser Cmd
  | 0, _, _ => throw .fuel
  | fuel + 1, argc, ret => do
    if ← peek line (['|', ')', '&', ';'].map Char.toUInt8) then return ret
    else
      let t ← gettoken line
      if t.ret = 0 then return ret
      else if t.ret ≠ Char.toUInt8 'a' then throw (.panic "syntax")
      else if argc + 1 ≥ MAXARGS then throw (.panic "too many args")
      else
        let ret ← parseredirs line fuel (ret.push (t.q, t.eq))
        wordsLoop line fuel (argc + 1) ret

/-- The loop of `parseline` over the `&`s. -/
def backLoop (line : Line) : ℕ → Cmd → Parser Cmd
  | 0, _ => throw .fuel
  | fuel + 1, cmd => do
    if ← peek line (['&'].map Char.toUInt8) then
      let _ ← gettoken line
      backLoop line fuel (.back cmd)
    else return cmd

mutual

def parseline (line : Line) : ℕ → Parser Cmd
  | 0 => throw .fuel
  | fuel + 1 => do
    let cmd ← parsepipe line fuel
    let cmd ← backLoop line fuel cmd
    if ← peek line ([';'].map Char.toUInt8) then
      let _ ← gettoken line
      return .list cmd (← parseline line fuel)
    else return cmd

def parsepipe (line : Line) : ℕ → Parser Cmd
  | 0 => throw .fuel
  | fuel + 1 => do
    let cmd ← parseexec line fuel
    if ← peek line (['|'].map Char.toUInt8) then
      let _ ← gettoken line
      return .pipe cmd (← parsepipe line fuel)
    else return cmd

def parseblock (line : Line) : ℕ → Parser Cmd
  | 0 => throw .fuel
  | fuel + 1 => do
    if ← peek line (['('].map Char.toUInt8) then
      let _ ← gettoken line
      let cmd ← parseline line fuel
      if ← peek line ([')'].map Char.toUInt8) then
        let _ ← gettoken line
        parseredirs line fuel cmd
      else throw (.panic "syntax - missing )")
    else throw (.panic "parseblock")

def parseexec (line : Line) : ℕ → Parser Cmd
  | 0 => throw .fuel
  | fuel + 1 => do
    if ← peek line (['('].map Char.toUInt8) then parseblock line fuel
    else
      let ret ← parseredirs line fuel (.exec [])
      wordsLoop line fuel 0 ret

end

/-- The words and file names of the tree are ended by zero bytes. -/
def nulterminate : Cmd → Bytes → Bytes
  | .exec argv, buf => argv.foldl (fun buf w => Function.update buf w.2 0) buf
  | .redir cmd _ efile _ _, buf => Function.update (nulterminate cmd buf) efile 0
  | .pipe left right, buf => nulterminate right (nulterminate left buf)
  | .list left right, buf => nulterminate right (nulterminate left buf)
  | .back cmd, buf => nulterminate cmd buf

/-- `parsecmd` up to `nulterminate`. -/
def parseAll (line : Line) (fuel : ℕ) : Parser Cmd := do
  let cmd ← parseline line fuel
  let _ ← peek line []
  if (← get) ≠ line.es then throw (.panic "syntax")
  else return cmd

/-- The tree of the line, and the buffer it points into. -/
def parsecmd (line : Line) (fuel : ℕ) : Except Stop (Cmd × Bytes) :=
  match parseAll line fuel 0 with
  | .ok cmd _ => .ok (cmd, nulterminate cmd line.buf)
  | .error e _ => .error e

end Nunix.Shell
