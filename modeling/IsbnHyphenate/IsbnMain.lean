import IsbnHyphenate.Getopt
import IsbnHyphenate.HyphenateFields
import IsbnHyphenate.HyphenateTrace
import IsbnHyphenate.IsbnStream
import IsbnHyphenate.ShowText

/-!
# The command

`main` with the functions that take the words of the command line: the option
loop, the list of the operands, and the three ways to read ISBNs. `eprint_fh`
may be the same file as the standard output; what is written to either is kept
apart here. A run ends with `exit` or at a fault.
-/

namespace IsbnHyphenate.Command
open Logged

inductive Out where
  | stdout (b : UInt8)
  | eprint (b : UInt8)
  deriving DecidableEq

abbrev Prog (α : Type) := Logged Out Stop α

def puts (s : CStr) : Prog Unit := emit (s.map fun c => .stdout c.1)

def eputs (s : CStr) : Prog Unit := emit (s.map fun c => .eprint c.1)

def eputchar (c : ℤ) : Prog Unit := emit [.eprint (UInt8.ofNat (c % 256).toNat)]

def onEprint {α : Type} (x : Traced.Noisy α) : Prog α :=
  ⟨x.log.map fun c => .eprint c.1, x.ret⟩

/-- What the run finds outside of the program. `notices` are the texts that
`show_program_version` prints; `behind` is the memory behind the operands and the
lines, and `stale` what stands in memory that was not written. A block of `n`
bytes can be written up to `slack n` bytes behind its end. -/
structure World where
  sz : Sizes
  slack : ℕ → ℕ
  document : Traced.Document
  notices : List CStr
  stdin : File
  access : CStr → Bool
  fopen : CStr → Except ℕ File
  fclose : CStr → Bool
  behind : ℕ → ℕ → UInt8
  stale : ℕ → ℕ → UInt8

def exitStatus (rv : ℤ) : ℕ := (rv % 256).toNat

/-- The globals and locals that the option loop sets. `dprint` says that
`dprint_fh` is not NULL. `main` does not set `rv` before the first option. -/
structure Settings where
  verbose : Bool
  debug : Bool
  optArgv : Bool
  dprint : Bool
  errCount : ℕ
  rv : ℤ

def chr (c : Char) : Chr := (lit [c]).headD question

def options : Options where
  short := say "hVdvEHw:"
  long :=
    [⟨say "help", chr 'h'⟩, ⟨say "version", chr 'V'⟩, ⟨say "verbose", chr 'v'⟩,
      ⟨say "debug", chr 'd'⟩, ⟨say "argv", chr 'A'⟩]

def usageText : CStr :=
  say "Options:\n" ++
  say "  --help|-h|-?         Show this help message and exit\n" ++
  say "  --version            Show version information and exit\n" ++
  say "  --verbose|-v         verbose\n" ++
  say "  --debug|-d           debug\n" ++
  say "  --argv               Input is argv, instead of from files\n"

def fprintl (s : CStr) : Prog Unit := do
  puts s
  puts newlineText

def showProgramVersion (w : World) : Prog Unit :=
  w.notices.foldr (fun s rest => do fprintl s; rest) (pure ())

def usage (name : CStr) : Prog Unit := do
  eputs (say "usage: ")
  eputs name
  eputs (say " [ <options> ]\n")
  eputs usageText

/-- `vischar_r` with a buffer of `sz` bytes; `snprintf` cuts the escape off. -/
def vischarR (sz : ℕ) (c : ℤ) : CStr :=
  if Traced.isprint c then lit [Char.ofNat c.toNat] else (Traced.hexEscape c).take (sz - 1)

def isLongOption (s : CStr) : Bool := [dash, dash] <+: s

def unknownOption (name word : CStr) (optopt : ℤ) : Prog Unit := do
  eputs (name ++ say ": ")
  if isLongOption word then eputs (say "unknown long option, '" ++ word ++ say "'\n")
  else eputs (say "unknown short option, '" ++ vischarR 10 optopt ++ say "'\n")

/-- The body of the loop behind `getopt_long`. The word is
`argv[this_option_optind]`; the last branch prints `optopt`, which a known option
does not set. -/
def handleOption (w : World) (name : CStr) (word : Option CStr) (optc : Chr) (optopt : ℤ)
    (st : Settings) : Prog Settings :=
  let st := { st with rv := 0 }
  let optc := if optc = question ∧ optopt = 63 then chr 'h' else optc
  if optc = chr 'V' then do
    showProgramVersion w
    quit (.exit 0)
  else if optc = chr 'h' then do
    puts usageText
    quit (.exit 0)
  -- `set_debug_fh(NULL)` makes `dprint_fh` NULL
  else if optc = chr 'd' then pure { st with debug := true, dprint := false }
  else if optc = chr 'v' then pure { st with verbose := true }
  else if optc = chr 'A' then pure { st with optArgv := true }
  else if optc = question then
    match word with
    | none => quit .badRead
    | some word => do
      unknownOption name word optopt
      pure { st with errCount := st.errCount + 1 }
  else do
    eputs (name ++ say ": INTERNAL ERROR: unknown option, '")
    eputchar optopt
    eputs (say "'\n")
    quit (.exit 2)

def tooManyErrors (name : CStr) : Prog Unit := eputs (name ++ say ": Too many option errors.\n")

def optionLoop (w : World) (name : CStr) : ℕ → Scan → Settings → Prog (List CStr × Settings)
  | 0, _, _ => quit .spin
  | fuel + 1, sc, st =>
    if st.errCount > 10 then do
      tooManyErrors name
      pure (sc.words, st)
    else
      match options.getoptLong sc with
      | (none, sc) => pure (sc.words, st)
      | (some optc, sc') => do
        let st ← handleOption w name sc.words.head? optc sc'.optopt st
        optionLoop w name fuel sc' st

def hbufSize : ℕ := 32

def intoHbuf (h : Hyphenation) : Run ℕ :=
  if ∀ r ∈ h.writes, r.2 = 0 ∨ r.1 + r.2 ≤ hbufSize then h.ret else .error .badWrite

def printHbuf (h : Hyphenation) (rv : ℕ) : Prog Unit :=
  if rv = 0 then fprintl (cstrAt h.hbuf 0 hbufSize) else pure ()

def argvIsbn (verbose : Bool) (isbn : Option RangeTable) (behind : ℕ → ℕ → UInt8) :
    ℕ → List CStr → Prog ℤ
  | _, [] => pure 0
  | i, s :: argv => do
    let h ← onEprint (Traced.hyphenateIsbn verbose isbn hbufSize ⟨s, behind i⟩)
    let rv ← silent (intoHbuf h)
    printHbuf h rv
    argvIsbn verbose isbn behind (i + 1) argv

/-- The trace of the line comes before the call, and `dbg_show_var` does not ask
whether there is a file for it. -/
def tracedLine (dprint : Bool) (isbn : Option RangeTable) (behind : ℕ → ℕ → UInt8) (n : ℕ)
    (s : CStr) : Hyphenation :=
  if dprint then hyphenateLine isbn behind n s else .quit [] (.error .badRead)

/-- The first `sgl_fgetline` traces its own call before it reads anything, and
`dbg_printf` asks for `debug` only. -/
def isbnStream (w : World) (st : Settings) (isbn : Option RangeTable) (fuel : ℕ) (f : File) :
    Prog ℤ :=
  if st.debug ∧ ¬ st.dprint then quit .badRead
  else
    let run := streamLoop w.sz w.stale (tracedLine st.dprint isbn w.behind) fuel 0 (linebufInit f)
    ⟨run.printed.flatMap fun hbuf =>
        (cstrAt hbuf 0 hbufSize ++ newlineText).map fun c => .stdout c.1,
      run.ret.map fun rv => (rv : ℤ)⟩

def fnameProbe (w : World) (fname : CStr) : Prog ℤ :=
  if fname = [dash] then pure 0
  else if w.access fname then pure 0
  else do
    eputs (say "'")
    onEprint (Traced.fshowFname fname)
    eputs (say "'")
    eputs (say " does not exist.\n")
    pure (-1)

def filevProbe (w : World) : ℤ → List CStr → Prog ℤ
  | anyRv, [] => pure anyRv
  | anyRv, fname :: filev => do
    let rv ← fnameProbe w fname
    filevProbe w (if rv ≠ 0 then rv else anyRv) filev

def filevIsbn (w : World) (st : Settings) (isbn : Option RangeTable) (fuel : ℕ) :
    List CStr → Prog ℤ
  | [] => pure 0
  | fname :: filev =>
    match w.fopen fname with
    | .error err => do
      eputs (say "fopen('" ++ fname ++ say "', \"r\") failed\n")
      eputs (say "  errno=" ++ formatZu err ++ newlineText)
      pure err
    | .ok f => do
      let rv ← isbnStream w st isbn fuel f
      if rv ≠ 0 then do
        eputs (say "isbn_stream('" ++ fname ++ say "') failed.\n")
        pure rv
      else if w.fclose fname then filevIsbn w st isbn fuel filev
      else do
        eputs (say "fclose('" ++ fname ++ say "') failed.\n")
        pure rv

def snameFrom (s : CStr) (afterSlash : Bool) : CStr → CStr
  | [] => s
  | c :: path => snameFrom (if afterSlash then c :: path else s) (chrIs '/' c) path

def sname (path : CStr) : CStr := snameFrom path false path

def listOperands : List CStr → Prog Unit
  | [] => pure ()
  | arg :: args => do
    eputs (say "    ")
    eputs (arg ++ newlineText)
    listOperands args

def showOperands (verbose : Bool) (filev : List CStr) : Prog Unit :=
  if verbose then do
    onEprint (Traced.fshowStrArray filev)
    if filev = [] then pure ()
    else do
      eputs (say "non-option ARGV-elements:\n")
      listOperands filev
  else pure ()

def processIsbns (w : World) (st : Settings) (verbose : Bool) (isbn : Option RangeTable)
    (fuel : ℕ) (filev : List CStr) : Prog ℤ :=
  if st.optArgv then argvIsbn verbose isbn w.behind 0 filev
  else if filev = [] then isbnStream w st isbn fuel w.stdin
  else do
    let rv ← filevProbe w 0 filev
    if rv ≠ 0 then quit (.exit (exitStatus rv))
    else filevIsbn w st isbn fuel filev

/-- What `fst_pack` writes stays in the block of the copy and its slack. -/
def Within (slack : ℕ → ℕ) (pk : Packed) : Prop := pk.used ≤ pk.alloc + slack pk.alloc

instance (slack : ℕ → ℕ) (pk : Packed) : Decidable (Within slack pk) :=
  inferInstanceAs (Decidable (pk.used ≤ pk.alloc + slack pk.alloc))

def runCommand (w : World) (name : CStr) (fuel : ℕ) (filev : List CStr) (st : Settings) :
    Prog Unit := do
  let verbose := st.verbose || st.debug
  showOperands verbose filev
  if st.errCount ≠ 0 then do
    usage name
    quit (.exit 1)
  else do
    let (isbn, fst) ← onEprint (Traced.parseIsbnRangeTable verbose w.document)
    if ¬ Within w.slack fst then quit .badWrite
    else if st.rv ≠ 0 then quit (.exit (exitStatus st.rv))
    else do
      let rv ← processIsbns w st verbose (some (isbn.table fst.view)) fuel filev
      quit (.exit (exitStatus rv))

/-- `main` with the program path and the other words of the command line; `rv` is
what stands in the variable before it is set. The first `getopt_long` sets
`optopt` to 0. -/
def main (w : World) (rv : ℤ) (fuel : ℕ) (path : CStr) (args : List CStr) : Prog Unit := do
  let (filev, st) ← optionLoop w (sname path) fuel ⟨args, [], 0⟩
    ⟨false, false, false, false, 0, rv⟩
  runCommand w (sname path) fuel filev st

end IsbnHyphenate.Command
